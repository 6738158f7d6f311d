import CoeleoOs.Lib.Text
import Mathlib.Order.MinMax

/-!
# Terminal output and its damage

Flanterm moves its cursor over a text and puts characters into cells; `dirty_canvas` predicts from
the text and from the cursor before and after which pixels of the canvas have changed. It counts
in cells of the canvas width over the columns, while Flanterm draws glyphs of a fixed size behind
a margin. Between escape sequences the modes of Flanterm are those after its start: it wraps and
it scrolls.
-/

namespace CoeleoOs.Ui
open CoeleoOs.Lib.Text

def margin : ℕ := 2
def glyphWidth : ℕ := 9
def glyphHeight : ℕ := 16

/-- The canvas of `attach_vt`, which Flanterm does not scale. -/
structure Grid where
  vw : ℕ
  vh : ℕ
  wide : 80 ≤ vw ∧ vw ≤ 1920
  high : 49 ≤ vh ∧ vh ≤ 1080

namespace Grid

variable (g : Grid)

def cols : ℕ := (g.vw - margin * 2) / glyphWidth
def rows : ℕ := (g.vh - margin * 2) / glyphHeight
def offsetX : ℕ := margin + (g.vw - margin * 2) % glyphWidth / 2
def offsetY : ℕ := margin + (g.vh - margin * 2) % glyphHeight / 2

theorem cols_pos : 0 < g.cols := by
  have h := g.wide.1
  simp only [cols, margin, glyphWidth]
  omega

end Grid

/-- The cursor of Flanterm; `x = cols` until the next character wraps. -/
structure Cursor (g : Grid) where
  x : ℕ
  y : ℕ
  x_le : x ≤ g.cols
  y_lt : y < g.rows

abbrev Cell := ℕ × ℕ

structure Walk (g : Grid) where
  cur : Cursor g
  cells : List (Cell × Char)
  scrolled : Bool

def isNewline (c : Char) : Bool := c.toNat = 0x0A ∨ c.toNat = 0x0B ∨ c.toNat = 0x0C

def isEscape (c : Char) : Bool := c.toNat = 0x1B

namespace Walk

variable {g : Grid}

def pos (cur : Cursor g) : Cell := (min cur.x (g.cols - 1), cur.y)

def start (cur : Cursor g) : Walk g := ⟨cur, [], false⟩

def setX (w : Walk g) (x : ℕ) (h : x ≤ g.cols) : Walk g :=
  { w with cur := { w.cur with x := x, x_le := h } }

def down (w : Walk g) : Walk g :=
  if h : w.cur.y + 1 < g.rows then { w with cur := { w.cur with y := w.cur.y + 1, y_lt := h } }
  else { w with scrolled := true }

def wrap (w : Walk g) : Walk g := if g.cols ≤ w.cur.x then (w.setX 0 (Nat.zero_le _)).down else w

theorem wrap_x (w : Walk g) : w.wrap.cur.x < g.cols := by
  unfold wrap
  split
  · unfold down
    split <;> exact g.cols_pos
  · omega

def put (w : Walk g) (c : Char) : Walk g :=
  { w.wrap.setX (w.wrap.cur.x + 1) w.wrap_x with
    cells := ((w.wrap.cur.x, w.wrap.cur.y), c) :: w.cells }

def char (glyphs : Char → List Char) (w : Walk g) (c : Char) : Walk g :=
  let x := min w.cur.x (g.cols - 1)
  if isNewline c then (w.setX x (by omega)).down
  else if c.toNat = 0x0D then w.setX 0 (Nat.zero_le _)
  else if c.toNat = 0x08 then if x = 0 then w else w.setX (x - 1) (by omega)
  else if c.toNat = 0x09 then w.setX (min ((x / 8 + 1) * 8) (g.cols - 1)) (by omega)
  else if c.toNat < 0x20 ∨ c.toNat = 0x7F then w
  else if c.toNat < 0x80 then w.put c
  else (glyphs c).foldl put w

def run (glyphs : Char → List Char) (w : Walk g) (s : List Char) : Walk g := s.foldl (char glyphs) w

def content (w : Walk g) (screen : Cell → Char) (c : Cell) : Char :=
  (w.cells.lookup c).getD (screen c)

end Walk

structure Dirty where
  x : ℕ
  y : ℕ
  w : ℕ
  h : ℕ
  deriving DecidableEq

namespace Grid

variable (g : Grid)

def cw : ℕ := max (g.vw / g.cols) 1
def ch : ℕ := max (g.vh / g.rows) 1

def cellPadded (col row : ℕ) (origin : Bool) : ℕ × ℕ :=
  if origin then (min ((col - 1) * g.cw) g.vw, min ((row - 1) * g.ch) g.vh)
  else (min ((col + 2) * g.cw) g.vw, min ((row + 2) * g.ch) g.vh)

/-- `none` is the whole client. -/
def dirtyCanvas (s : List Char) (old new : Cell) : Option Dirty :=
  if s.any fun c => c = '\n' || isEscape c || c.toNat = 0x0C then none
  else if g.rows ≤ old.2 + 1 ∧ g.cols ≤ old.1 + s.length then none
  else if 3 < (new.2 - old.2) + (old.2 - new.2) then none
  else
    let p₀ := g.cellPadded (min old.1 new.1) (min old.2 new.2) true
    let p₁ := g.cellPadded (max old.1 new.1) (max old.2 new.2) false
    if g.ch * 3 < p₁.2 - p₀.2 then none
    else some ⟨p₀.1, p₀.2, p₁.1 - p₀.1, p₁.2 - p₀.2⟩

/-- The pixels that the glyph of a cell is drawn on lie inside what is marked. -/
def Marked (d : Option Dirty) (c : Cell) : Prop :=
  ∀ r, d = some r →
    r.x ≤ g.offsetX + c.1 * glyphWidth ∧ g.offsetX + (c.1 + 1) * glyphWidth ≤ r.x + r.w ∧
      r.y ≤ g.offsetY + c.2 * glyphHeight ∧ g.offsetY + (c.2 + 1) * glyphHeight ≤ r.y + r.h

end Grid

section Writes

variable {g : Grid} (glyphs : Char → List Char) (s : List Char) (cur : Cursor g)

/-- Where the cursor can stand after the text: an escape sequence may move it anywhere. -/
def Ends (new : Cell) : Prop :=
  s.any isEscape = true ∨ new = Walk.pos ((Walk.start cur).run glyphs s).cur

/-- The cells whose content can change: a scroll or an escape sequence may change any. -/
def Changes (screen : Cell → Char) (c : Cell) : Prop :=
  c.1 < g.cols ∧ c.2 < g.rows ∧
    (s.any isEscape = true ∨ ((Walk.start cur).run glyphs s).scrolled = true ∨
      ((Walk.start cur).run glyphs s).content screen c ≠ screen c)

/-- Whatever the screen shows, the write marks each cell that changes. -/
def Covers : Prop :=
  ∀ screen new, Ends glyphs s cur new → ∀ c, Changes glyphs s cur screen c →
    g.Marked (g.dirtyCanvas s (Walk.pos cur) new) c

/-- The guards of `dirty_canvas`: a new line, a form feed or an escape, the end of the last row in
reach, a jump over rows, or a rectangle of more than three rows. -/
def Whole (g : Grid) (s : List Char) (old new : Cell) : Prop :=
  (∃ c ∈ s, c = '\n' ∨ isEscape c = true ∨ c.toNat = 0x0C) ∨
    (g.rows ≤ old.2 + 1 ∧ g.cols ≤ old.1 + s.length) ∨
    3 < (new.2 - old.2) + (old.2 - new.2) ∨
    g.ch * 3 < min ((max old.2 new.2 + 2) * g.ch) g.vh - min ((min old.2 new.2 - 1) * g.ch) g.vh

def Near (k off size a b x : ℕ) : Prop :=
  (min a b - 1) * k ≤ off + x * size ∧ off + (x + 1) * size ≤ (max a b + 2) * k

def Grid.NearCol (g : Grid) : ℕ → ℕ → ℕ → Prop := Near g.cw g.offsetX glyphWidth

def Grid.NearRow (g : Grid) : ℕ → ℕ → ℕ → Prop := Near g.ch g.offsetY glyphHeight

/-- No character is put further from the columns of the cursor before and after, and a scroll only
shows on a screen where every cell is as near. -/
def StaysNear (old new : Cell) (w : Walk g) : Prop :=
  if w.scrolled then
    ∀ c : Cell, c.1 < g.cols → c.2 < g.rows → g.NearCol old.1 new.1 c.1 ∧ g.NearRow old.2 new.2 c.2
  else ∀ p ∈ w.cells, g.NearCol old.1 new.1 p.1.1

end Writes

section Marks

variable {g : Grid}

structure Steps (size v n off k : ℕ) : Prop where
  size_ge : 3 ≤ size
  count : 0 < n
  room : n * size + margin * 2 + (v - margin * 2) % size = v
  offset : off = margin + (v - margin * 2) % size / 2
  step : k = max (v / n) 1

theorem steps_of {size v : ℕ} (hsize : 3 ≤ size) (hv : margin * 2 + size ≤ v) :
    Steps size v ((v - margin * 2) / size) (margin + (v - margin * 2) % size / 2)
      (max (v / ((v - margin * 2) / size)) 1) where
  size_ge := hsize
  count := Nat.div_pos (by omega) (by omega)
  room := by
    have h := Nat.div_add_mod' (v - margin * 2) size
    omega
  offset := rfl
  step := rfl

theorem stepsX (g : Grid) : Steps glyphWidth g.vw g.cols g.offsetX g.cw := by
  have h := g.wide.1
  exact steps_of (by decide) (by simp only [margin, glyphWidth]; omega)

theorem stepsY (g : Grid) : Steps glyphHeight g.vh g.rows g.offsetY g.ch := by
  have h := g.high.1
  exact steps_of (by decide) (by simp only [margin, glyphHeight]; omega)

variable {size v n off k a b x : ℕ}

theorem Steps.rest_lt (h : Steps size v n off k) : (v - margin * 2) % size < size :=
  Nat.mod_lt _ (by have := h.size_ge; omega)

theorem Steps.inside (h : Steps size v n off k) (hx : x < n) : off + (x + 1) * size ≤ v := by
  have hmul : (x + 1) * size ≤ n * size := Nat.mul_le_mul_right size hx
  have hroom := h.room
  have hoff := h.offset
  simp only [margin] at hroom hoff
  omega

theorem Steps.extra (h : Steps size v n off k) :
    ∃ d, k = size + d ∧ n * d ≤ margin * 2 + (v - margin * 2) % size := by
  have hroom := h.room
  have hle : size ≤ v / n := (Nat.le_div_iff_mul_le h.count).mpr (by rw [Nat.mul_comm]; omega)
  have hk : k = v / n := by
    have hsize := h.size_ge
    rw [h.step, max_eq_left (by omega)]
  have hmul : n * (v / n) ≤ v := Nat.mul_div_le v n
  refine ⟨v / n - size, by omega, ?_⟩
  rw [Nat.mul_sub]
  omega

theorem Steps.near_between (h : Steps size v n off k) (hx : x < n) (hlow : min a b ≤ x)
    (hhigh : x ≤ max a b) : Near k off size a b x := by
  obtain ⟨d, rfl, hd⟩ := h.extra
  have hrest := h.rest_lt
  have hoff := h.offset
  have hsize := h.size_ge
  simp only [margin] at hd hoff hrest
  constructor
  · rcases Nat.eq_zero_or_pos (min a b - 1) with hzero | hpos
    · rw [hzero, Nat.zero_mul]
      exact Nat.zero_le _
    · have hglyph : (min a b - 1) * size + size ≤ x * size := by
        have hmul := Nat.mul_le_mul_right size (show min a b - 1 + 1 ≤ x by omega)
        rwa [Nat.succ_mul] at hmul
      have hextra : (min a b - 1) * d ≤ off + size := by
        rcases Nat.eq_zero_or_pos d with rfl | hdpos
        · exact Nat.zero_le _
        · have hmul := Nat.mul_le_mul_right d (show min a b - 1 + 2 ≤ n by omega)
          rw [Nat.add_mul] at hmul
          omega
      rw [Nat.mul_add]
      omega
  · have hstep : (x + 2) * size ≤ (max a b + 2) * (size + d) :=
      Nat.mul_le_mul (by omega) (Nat.le_add_right size d)
    rw [Nat.add_mul] at hstep ⊢
    omega

theorem Steps.span_iff (h : Steps size v n off k) (hx : x < n) :
    min ((min a b - 1) * k) v ≤ off + x * size ∧
      off + (x + 1) * size ≤ min ((min a b - 1) * k) v +
        (min ((max a b + 2) * k) v - min ((min a b - 1) * k) v) ↔ Near k off size a b x := by
  have hend := h.inside hx
  have hsize := h.size_ge
  have hspan : min ((min a b - 1) * k) v ≤ min ((max a b + 2) * k) v :=
    min_le_min_right _ (Nat.mul_le_mul_right k (by omega))
  have hstart : off + x * size < v := by
    rw [Nat.add_mul] at hend
    omega
  rw [Nat.add_sub_cancel' hspan, le_min_iff, and_iff_left hend, min_le_iff,
    or_iff_left (not_le.mpr hstart), Near]

theorem nearCol_iff (g : Grid) (h : 12 < g.cols) (a b x : ℕ) :
    g.NearCol a b x ↔ min a b ≤ x + 1 ∧ x ≤ max a b := by
  obtain ⟨d, hk, hd⟩ := (stepsX g).extra
  have hrest := (stepsX g).rest_lt
  have hoff := (stepsX g).offset
  simp only [margin, glyphWidth] at hk hd hrest hoff
  obtain rfl : d = 0 := by
    by_contra hne
    have hmul := Nat.mul_le_mul_left g.cols (Nat.pos_of_ne_zero hne)
    omega
  rw [Grid.NearCol, Near, hk, glyphWidth]
  omega

variable {s : List Char} {old new c : Cell}

theorem dirtyCanvas_whole (h : Whole g s old new) : g.dirtyCanvas s old new = none := by
  rw [Grid.dirtyCanvas]
  split
  · rfl
  rename_i hbytes
  split
  · rfl
  rename_i hlast
  split
  · rfl
  rename_i hjump
  rcases h with ⟨c, hc, hbyte⟩ | h | h | h
  · refine absurd (List.any_eq_true.mpr ⟨c, hc, ?_⟩) hbytes
    simpa [or_assoc] using hbyte
  · exact absurd h hlast
  · exact absurd h hjump
  · exact if_pos h

theorem marked_iff (h : ¬ Whole g s old new) (hcol : c.1 < g.cols) (hrow : c.2 < g.rows) :
    g.Marked (g.dirtyCanvas s old new) c ↔ g.NearCol old.1 new.1 c.1 ∧
    g.NearRow old.2 new.2 c.2 := by
  rw [Whole, not_or, not_or, not_or] at h
  obtain ⟨hbytes, hlast, hjump, htall⟩ := h
  have hnone : ¬ (s.any fun c => c = '\n' || isEscape c || c.toNat = 0x0C) = true := by
    rw [List.any_eq_true]
    rintro ⟨c, hc, hbyte⟩
    exact hbytes ⟨c, hc, by simpa [or_assoc] using hbyte⟩
  rw [Grid.dirtyCanvas, if_neg hnone, if_neg hlast, if_neg hjump]
  dsimp only [Grid.cellPadded]
  rw [if_pos rfl, if_neg Bool.false_ne_true, if_neg htall, Grid.NearCol, Grid.NearRow,
    ← (stepsX g).span_iff hcol, ← (stepsY g).span_iff hrow]
  simp only [Grid.Marked, Option.some.injEq, forall_eq', and_assoc]

end Marks

namespace Walk

variable {g : Grid}

structure Advances (w w' : Walk g) : Prop where
  row : w.cur.y ≤ w'.cur.y
  cells : ∀ p ∈ w'.cells, p ∈ w.cells ∨ p.1.1 < g.cols ∧ w.cur.y ≤ p.1.2 ∧ p.1.2 ≤ w'.cur.y

theorem Advances.refl (w : Walk g) : Advances w w := ⟨Nat.le_refl _, fun _ hp => .inl hp⟩

theorem Advances.trans {w w' w'' : Walk g} (h : Advances w w') (h' : Advances w' w'') :
    Advances w w'' where
  row := h.row.trans h'.row
  cells := by
    intro p hp
    rcases h'.cells p hp with hp | ⟨hcol, hlow, hhigh⟩
    · exact (h.cells p hp).imp_right fun ⟨hcol, hlow, hhigh⟩ => ⟨hcol, hlow, hhigh.trans h'.row⟩
    · exact .inr ⟨hcol, h.row.trans hlow, hhigh⟩

theorem setX_advances (w : Walk g) (x : ℕ) (hx : x ≤ g.cols) : Advances w (w.setX x hx) :=
  ⟨Nat.le_refl _, fun _ hp => .inl hp⟩

theorem down_advances (w : Walk g) : Advances w w.down := by
  unfold down
  split
  · exact ⟨Nat.le_succ _, fun _ hp => .inl hp⟩
  · exact ⟨Nat.le_refl _, fun _ hp => .inl hp⟩

theorem wrap_advances (w : Walk g) : Advances w w.wrap := by
  unfold wrap
  split
  · exact (setX_advances w 0 _).trans (down_advances _)
  · exact .refl w

theorem put_advances (w : Walk g) (c : Char) : Advances w (w.put c) where
  row := w.wrap_advances.row
  cells := by
    intro p hp
    rcases List.mem_cons.mp hp with rfl | hp
    · exact .inr ⟨w.wrap_x, w.wrap_advances.row, Nat.le_refl _⟩
    · exact .inl hp

theorem foldl_put_advances (w : Walk g) (cs : List Char) : Advances w (cs.foldl put w) := by
  induction cs generalizing w with
  | nil => exact .refl w
  | cons c cs ih => exact (put_advances w c).trans (ih _)

theorem char_advances (glyphs : Char → List Char) (w : Walk g) (c : Char) :
    Advances w (w.char glyphs c) := by
  unfold char
  dsimp only
  split
  · exact (setX_advances w _ _).trans (down_advances _)
  split
  · exact setX_advances w _ _
  split
  · split
    · exact .refl w
    · exact setX_advances w _ _
  split
  · exact setX_advances w _ _
  split
  · exact .refl w
  split
  · exact put_advances w c
  · exact foldl_put_advances w _

theorem run_advances (glyphs : Char → List Char) (w : Walk g) (s : List Char) :
    Advances w (w.run glyphs s) := by
  induction s generalizing w with
  | nil => exact .refl w
  | cons c s ih => exact (char_advances glyphs w c).trans (ih _)

theorem content_ne {w : Walk g} {screen : Cell → Char} {c : Cell}
    (h : w.content screen c ≠ screen c) : ∃ p ∈ w.cells, p.1 = c := by
  by_contra hnone
  refine h ?_
  have hlookup : w.cells.lookup c = none := by
    rw [List.lookup_eq_none_iff]
    exact fun p hp => by simpa using fun heq => hnone ⟨p, hp, heq.symm⟩
  rw [content, hlookup]
  rfl

theorem exists_content_ne {w : Walk g} {p : Cell × Char} (hp : p ∈ w.cells) :
    ∃ screen, w.content screen p.1 ≠ screen p.1 := by
  have hsome : (w.cells.lookup p.1).isSome = true := by
    rw [List.lookup_isSome_iff]
    exact ⟨p, hp, beq_self_eq_true _⟩
  obtain ⟨v, hv⟩ := Option.isSome_iff_exists.mp hsome
  refine ⟨fun _ => if v = ' ' then 'x' else ' ', ?_⟩
  rw [content, hv, Option.getD_some]
  split
  · rename_i h
    have hother : ' ' ≠ 'x' := by decide
    rw [h]
    exact hother
  · assumption

end Walk

section Covers

variable {g : Grid} (glyphs : Char → List Char) (s : List Char) (cur : Cursor g)

theorem any_isEscape_whole {old new : Cell} (h : s.any isEscape = true) : Whole g s old new := by
  obtain ⟨c, hc, hesc⟩ := List.any_eq_true.mp h
  exact .inl ⟨c, hc, .inr (.inl hesc)⟩

variable {glyphs s cur}

theorem written_inside {p : Cell × Char} (hp : p ∈ ((Walk.start cur).run glyphs s).cells) :
    p.1.1 < g.cols ∧ cur.y ≤ p.1.2 ∧ p.1.2 ≤ ((Walk.start cur).run glyphs s).cur.y :=
  ((Walk.run_advances glyphs (.start cur) s).cells p hp).resolve_left List.not_mem_nil

theorem staysNear_of_covers (hcovers : Covers glyphs s cur)
    (hwhole : ¬ Whole g s (Walk.pos cur) (Walk.pos ((Walk.start cur).run glyphs s).cur)) :
    StaysNear (Walk.pos cur) (Walk.pos ((Walk.start cur).run glyphs s).cur)
      ((Walk.start cur).run glyphs s) := by
  unfold StaysNear
  split
  · rename_i hscroll
    intro c hcol hrow
    exact (marked_iff hwhole hcol hrow).mp (hcovers (fun _ => ' ') _ (.inr rfl) c ⟨hcol, hrow,
      .inr (.inl hscroll)⟩)
  · intro p hp
    obtain ⟨hcol, -, hhigh⟩ := written_inside hp
    have hrow := Nat.lt_of_le_of_lt hhigh ((Walk.start cur).run glyphs s).cur.y_lt
    obtain ⟨screen, hscreen⟩ := Walk.exists_content_ne hp
    exact ((marked_iff hwhole hcol hrow).mp (hcovers screen _ (.inr rfl) p.1 ⟨hcol, hrow,
      .inr (.inr hscreen)⟩)).1

theorem covers_of_staysNear
    (hnear : Whole g s (Walk.pos cur) (Walk.pos ((Walk.start cur).run glyphs s).cur) ∨
    StaysNear (Walk.pos cur) (Walk.pos ((Walk.start cur).run glyphs s).cur)
      ((Walk.start cur).run glyphs s)) : Covers glyphs s cur := by
  intro screen new hends c ⟨hcol, hrow, hchange⟩
  by_cases hesc : s.any isEscape = true
  · rw [dirtyCanvas_whole (any_isEscape_whole s hesc)]
    exact nofun
  obtain rfl := hends.resolve_left hesc
  by_cases hwhole : Whole g s (Walk.pos cur) (Walk.pos ((Walk.start cur).run glyphs s).cur)
  · rw [dirtyCanvas_whole hwhole]
    exact nofun
  replace hnear := hnear.resolve_left hwhole
  rw [marked_iff hwhole hcol hrow]
  unfold StaysNear at hnear
  split at hnear
  · exact hnear c hcol hrow
  · rename_i hscroll
    obtain ⟨p, hp, rfl⟩ := Walk.content_ne ((hchange.resolve_left hesc).resolve_left hscroll)
    obtain ⟨-, hlow, hhigh⟩ := written_inside hp
    have hold : (Walk.pos cur).2 ≤ p.1.2 := hlow
    exact ⟨hnear p hp, (stepsY g).near_between hrow ((min_le_left _ _).trans hold)
      (hhigh.trans (le_max_right _ _))⟩

variable (glyphs s cur)

def Marks : Prop :=
  Whole g s (Walk.pos cur) (Walk.pos ((Walk.start cur).run glyphs s).cur) ∨
    StaysNear (Walk.pos cur) (Walk.pos ((Walk.start cur).run glyphs s).cur)
      ((Walk.start cur).run glyphs s)

theorem covers_iff_marks : Covers glyphs s cur ↔ Marks glyphs s cur := by
  refine ⟨fun h => ?_, covers_of_staysNear⟩
  by_contra hnot
  rw [Marks, not_or] at hnot
  exact hnot.2 (staysNear_of_covers h hnot.1)

end Covers

section Console

variable {g : Grid} (glyphs : Char → List Char)

/-- The texts that `console::write` hands to the terminal one by one. -/
def emit (s : List Char) : List (List Char) :=
  ((s.splitOn '\n').intersperse ['\r', '\n']).filter (· ≠ [])

/-- Each text of a sequence meets `P` where the one before left the cursor. -/
def InTurn (P : List Char → Cursor g → Prop) : List (List Char) → Cursor g → Prop
  | [], _ => True
  | s :: ss, cur =>
    P s cur ∧ ∀ cur' : Cursor g, Ends glyphs s cur (Walk.pos cur') → InTurn P ss cur'

theorem inTurn_congr {P Q : List Char → Cursor g → Prop} (h : ∀ s cur, P s cur ↔ Q s cur)
    (ss : List (List Char)) (cur : Cursor g) : InTurn glyphs P ss cur ↔ InTurn glyphs Q ss cur := by
  induction ss generalizing cur with
  | nil => rfl
  | cons s ss ih => exact and_congr (h s cur) (forall₂_congr fun cur' _ => ih cur')

structure Plain (cur : Cursor g) (s : List Char) : Prop where
  chars : ∀ c ∈ s, 0x20 ≤ c.toNat ∧ c.toNat < 0x7F
  fits : cur.x + s.length ≤ g.cols

theorem put_inside {w : Walk g} (h : w.cur.x < g.cols) (c : Char) :
    (w.put c).cur.x = w.cur.x + 1 ∧ (w.put c).cur.y = w.cur.y ∧ (w.put c).scrolled = w.scrolled ∧
      (w.put c).cells = ((w.cur.x, w.cur.y), c) :: w.cells := by
  have hwrap : w.wrap = w := if_neg (by omega)
  simp only [Walk.put, hwrap, Walk.setX, and_self]

theorem run_plain {w : Walk g} {s : List Char} (h : Plain w.cur s) :
    (w.run glyphs s).cur.x = w.cur.x + s.length ∧ (w.run glyphs s).scrolled = w.scrolled ∧
      ∀ p ∈ (w.run glyphs s).cells, p ∈ w.cells ∨ w.cur.x ≤ p.1.1 ∧ p.1.1 < w.cur.x + s.length := by
  induction s generalizing w with
  | nil => exact ⟨rfl, rfl, fun _ hp => .inl hp⟩
  | cons c s ih =>
    have hfits := h.fits
    rw [List.length_cons] at hfits
    obtain ⟨hlow, hhigh⟩ := h.chars c List.mem_cons_self
    have hchar : w.char glyphs c = w.put c := by
      have hnl : isNewline c = false := by
        rw [isNewline, decide_eq_false_iff_not]
        omega
      simp only [Walk.char, hnl, Bool.false_eq_true, if_false]
      rw [if_neg (by omega), if_neg (by omega), if_neg (by omega), if_neg (by omega),
        if_pos (by omega)]
    obtain ⟨hx, hy, hscroll, hcells⟩ := put_inside (w := w) (by omega) c
    have hrest : Plain (w.put c).cur s :=
      ⟨fun d hd => h.chars d (List.mem_cons_of_mem c hd), by omega⟩
    obtain ⟨hx', hscroll', hcells'⟩ := ih hrest
    have hrun : w.run glyphs (c :: s) = (w.put c).run glyphs s := by
      rw [Walk.run, List.foldl_cons, hchar, Walk.run]
    rw [hrun, List.length_cons]
    refine ⟨by omega, hscroll'.trans hscroll, fun p hp => ?_⟩
    rcases hcells' p hp with hp | ⟨hlow', hhigh'⟩
    · rw [hcells] at hp
      rcases List.mem_cons.mp hp with rfl | hp
      · exact .inr ⟨Nat.le_refl _, Nat.lt_add_of_pos_right (Nat.succ_pos _)⟩
      · exact .inl hp
    · exact .inr ⟨by omega, by omega⟩

theorem plain_marks {cur : Cursor g} {s : List Char} (h : Plain cur s) : Marks glyphs s cur := by
  refine .inr ?_
  have hstart : Plain (Walk.start cur).cur s := h
  obtain ⟨hx, hscroll, hcells⟩ := run_plain glyphs hstart
  have hfits := h.fits
  rw [StaysNear, if_neg (by rw [hscroll]; exact Bool.false_ne_true)]
  intro p hp
  obtain ⟨hlow, hhigh⟩ := (hcells p hp).resolve_left List.not_mem_nil
  have hcur : (Walk.start cur).cur.x = cur.x := rfl
  rw [hcur] at hx hlow hhigh
  refine (stepsX g).near_between (by omega) ((min_le_left _ _).trans ?_)
    (le_trans ?_ (le_max_right _ _))
  · exact (min_le_left _ _).trans hlow
  · rw [Walk.pos, hx]
    dsimp only
    omega

end Console

def sampleGrid : Grid := ⟨724, 404, by decide, by decide⟩

end CoeleoOs.Ui
