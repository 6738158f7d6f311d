import CoeleoOs.Ui.Glyphs

/-!
# Rounded windows

What the compositor writes into a window: the pixels of the rounded frame, blended at its corners,
and the drawing operations that the file manager and the settings have for their contents. The
contents are any list of these operations. Nothing is protected from them, as on a repaint of
damage.
-/

namespace CoeleoOs.Ui
open CoeleoOs.Lib Pixel

/-- A picture with all its pixels, fewer than a `u32` counts. -/
structure Canvas where
  w : ℕ
  h : ℕ
  pix : Array Color
  size_eq : pix.size = w * h
  lt : w * h < 2 ^ 32

def Canvas.at' (c : Canvas) (x y : ℕ) : Color := c.pix.getD (y * c.w + x) 0

/-- The outer rectangle of a window. -/
structure RoundWin where
  wx : ℕ
  wy : ℕ
  ww : ℕ
  wh : ℕ

section Window

variable (t : DrawTarget) (k : RoundWin)

-- The colour buffer keeps the fourth byte of a blended pixel.
def blendFb (dst src : Color) (a : UInt8) : Color := blend dst src a ||| (dst &&& 0xFF000000)

def RoundWin.cov (x y : ℕ) : UInt8 := coverageRound x y k.wx k.wy k.ww k.wh radius

def RoundWin.put (x y : ℕ) (color : Color) : Paint :=
  let cov := k.cov x y
  if cov = 0 then skip
  else if cov = 255 then Ui.put t x y color
  else touch t x y fun dst => blendFb dst color cov

def RoundWin.inked (x y : ℕ) (color dst : Color) : Color :=
  if k.cov x y = 0 then dst else if k.cov x y = 255 then color else blendFb dst color (k.cov x y)

def RoundWin.Inner (y : ℕ) : Prop := satAdd k.wy radius ≤ y ∧ y < satAdd k.wy k.wh - radius

instance (y : ℕ) : Decidable (k.Inner y) := inferInstanceAs (Decidable (_ ∧ _))

def RoundWin.fill (color : Color) (r : Rect) : Paint :=
  range r.y0 r.y1 fun y =>
    if k.Inner y then fillSpan t r.x0 y (r.x1 - r.x0) color else range r.x0 r.x1 fun x =>
      k.put t x y color

end Window

inductive SinkOp
  | fill (x y rw rh : ℕ) (color : Color)
  | text (x y : ℕ) (s : List Char) (color : Color)
  | fillRound (x y rw rh radius : ℕ) (color : Color)
  | textElide (x y : ℕ) (s : List Char) (color : Color) (x1 : ℕ)
  | blit (x y : ℕ) (pix : Canvas)
  | icon (which : Icon) (x y : ℕ) (color : Color)
  | iconBtn (x y : ℕ) (which : Icon) (hovered enabled : Bool)
  | queryField (x y w h : ℕ) (text placeholder : List Char) (caret searchIcon : Bool)
  | crumb (x y h : ℕ) (label : List Char) (hovered : Bool)
  | crumbSep (x y h : ℕ)
  | vsep (x y h : ℕ)
  | listRow (x y w h : ℕ) (label : List Char) (which : Option Icon) (color : Color)
    (selected hovered : Bool)

/-- Where the contents of a window lie. -/
structure FilesSink where
  ox : ℕ
  oy : ℕ
  w : ℕ
  h : ℕ
  win : RoundWin

namespace FilesSink

variable (font : Font) (t : DrawTarget) (k : FilesSink)

def put (x y : ℕ) (color : Color) (clip : Rect) : Paint :=
  if clip.Contains x y then k.win.put t x y color else skip

def fillVis (color : Color) (clip r : Rect) : Paint :=
  range r.y0 r.y1 fun y =>
    if k.win.Inner y then fillSpan t r.x0 y (r.x1 - r.x0) color else range r.x0 r.x1 fun x =>
      k.put t x y color clip

def fill (x y rw rh : ℕ) (color : Color) (clip : Rect) : Paint :=
  let x1 := min x k.w
  let y1 := min y k.h
  let x2 := min (satAdd x rw) k.w
  let y2 := min (satAdd y rh) k.h
  let r : Rect := ⟨satAdd k.ox x1, satAdd k.oy y1, satAdd k.ox x2, satAdd k.oy y2⟩
  if x2 ≤ x1 ∨ y2 ≤ y1 then skip
  else if (r.intersect clip).IsEmpty then skip
  else k.fillVis t color clip (r.intersect clip)

def textElide (x y : ℕ) (s : List Char) (color : Color) (x1 : ℕ) (clip : Rect) : Paint :=
  Ui.textElide font t (satAdd k.ox x) (satAdd k.oy y) s color (satAdd k.ox (min x1 k.w)) clip

def blit (x y : ℕ) (pix : Canvas) (clip : Rect) : Paint :=
  range 0 pix.h fun row => range 0 pix.w fun col =>
    if k.w ≤ satAdd x col ∨ k.h ≤ satAdd y row then skip
    else if clip.Contains (k.ox + satAdd x col) (k.oy + satAdd y row) then
      k.put t (k.ox + satAdd x col) (k.oy + satAdd y row) (pix.at' col row &&& 0x00FFFFFF) clip
    else skip

def draw (op : SinkOp) (clip : Rect) : Paint :=
  match op with
  | .fill x y rw rh color => k.fill t x y rw rh color clip
  | .text x y s color => k.textElide font t x y s color k.w clip
  | .fillRound x y rw rh radius color =>
    Ui.fillRound t (satAdd k.ox x) (satAdd k.oy y) rw rh radius color clip
  | .textElide x y s color x1 => k.textElide font t x y s color x1 clip
  | .blit x y pix => k.blit t x y pix clip
  | .icon which x y color => Ui.icon t which (satAdd k.ox x) (satAdd k.oy y) color clip
  | .iconBtn x y which hovered enabled =>
    Ui.iconBtn t (satAdd k.ox x) (satAdd k.oy y) which hovered enabled clip
  | .queryField x y w h s placeholder caret searchIcon =>
    Ui.queryField font t (satAdd k.ox x) (satAdd k.oy y) w h s placeholder caret searchIcon clip
  | .crumb x y h label hovered =>
    Ui.crumb font t (satAdd k.ox x) (satAdd k.oy y) h label hovered clip
  | .crumbSep x y h => Ui.crumbSep font t (satAdd k.ox x) (satAdd k.oy y) h clip
  | .vsep x y h => Ui.vsep t (satAdd k.ox x) (satAdd k.oy y) h clip
  | .listRow x y w h label which color selected hovered =>
    listRowFg font t (satAdd k.ox x) (satAdd k.oy y) w h label which selected hovered color clip

end FilesSink

section Clips

variable {font : Font} {t : DrawTarget} {k : FilesSink}

theorem Rect.mem_intersect {a b : Rect} {p : ℕ × ℕ} : (a.intersect b).Mem p ↔ a.Mem p ∧ b.Mem p :=
  Rect.contains_intersect

theorem Rect.not_isEmpty_of_mem {a : Rect} {p : ℕ × ℕ} (h : a.Mem p) : ¬ a.IsEmpty :=
  Rect.not_isEmpty_iff.mpr ⟨_, _, h⟩

theorem cut_clipped {r : Rect} {cut : Rect → Rect} (hcut : ∀ clip p, (cut clip).Mem p ↔
    clip.Mem p ∧ r.Mem p) {R : ℕ × ℕ → Prop} {P : Rect → Paint} (h : Clipped Rect.Mem R P) :
    Clipped Rect.Mem (fun p => r.Mem p ∧ R p) fun clip => if (cut clip).IsEmpty then skip
      else P (cut clip) :=
  .guarded (fun clip _ hc hr => Rect.not_isEmpty_of_mem ((hcut clip _).mpr ⟨hc, hr.1⟩))
    (.via (φ := cut) hcut h)

theorem mem_cut (r clip : Rect) (p : ℕ × ℕ) : (r.intersect clip).Mem p ↔ clip.Mem p ∧ r.Mem p :=
  Rect.mem_intersect.trans and_comm

theorem RoundWin.put_eq_touch (k : RoundWin) (x y : ℕ) (color : Color) :
    k.put t x y color = touch t x y (k.inked x y color) := by
  funext s p
  rw [RoundWin.put, touch_apply, RoundWin.inked]
  by_cases h0 : k.cov x y = 0
  · rw [if_pos h0, if_pos h0, ite_self]
    rfl
  rw [if_neg h0, if_neg h0]
  by_cases h255 : k.cov x y = 255
  · rw [if_pos h255, if_pos h255]
    exact touch_apply t x y (fun _ => color) s p
  · rw [if_neg h255, if_neg h255, touch_apply]

def RoundWin.filled (k : RoundWin) (color : Color) (p : ℕ × ℕ) (dst : Color) : Color :=
  if k.Inner p.2 then color else k.inked p.1 p.2 color dst

theorem RoundWin.fillRow_apply (k : RoundWin) (color : Color) (x0 x1 y : ℕ) (s : ℕ × ℕ → Color)
    (p : ℕ × ℕ) :
    (if k.Inner y then fillSpan t x0 y (x1 - x0) color
      else range x0 x1 fun x => k.put t x y color) s p = if p.2 = y ∧ x0 ≤ p.1 ∧ p.1 < x1 ∧ t.Has p
        then k.filled color p (s p) else s p := by
  by_cases hin : k.Inner y
  · rw [if_pos hin, fillSpan_apply]
    by_cases hp : p.2 = y ∧ x0 ≤ p.1 ∧ p.1 < x1 ∧ t.Has p
    · obtain ⟨rfl, h0, h1, hhas⟩ := hp
      rw [if_pos ⟨rfl, h0, by omega, hhas⟩, if_pos ⟨rfl, h0, h1, hhas⟩, RoundWin.filled, if_pos hin]
    · rw [if_neg hp, if_neg]
      rintro ⟨h1, h2, h3, h4⟩
      exact hp ⟨h1, h2, by omega, h4⟩
  · rw [if_neg hin, row_apply t (g := fun x => k.inked x y color) fun x s p =>
      by rw [k.put_eq_touch, touch_apply]]
    by_cases hp : p.2 = y ∧ x0 ≤ p.1 ∧ p.1 < x1 ∧ t.Has p
    · obtain ⟨rfl, hp⟩ := hp
      rw [if_pos ⟨rfl, hp⟩, if_pos ⟨rfl, hp⟩, RoundWin.filled, if_neg hin]
    · rw [if_neg hp, if_neg hp]

theorem RoundWin.fill_apply (k : RoundWin) (color : Color) (r : Rect) (s : ℕ × ℕ → Color)
    (p : ℕ × ℕ) : k.fill t color r s p = if r.Mem p ∧ t.Has p then k.filled color p (s p)
      else s p := by
  exact block_apply (G := k.filled color) (fun y s p => k.fillRow_apply color r.x0 r.x1 y s p) s p

theorem RoundWin.fill_clipped (k : RoundWin) (color : Color) :
    Clipped Rect.Mem All (k.fill t color) := by
  refine .of_formula (fun p c => if t.Has p then k.filled color p c else c) (fun r s p hr _ => ?_)
    (fun r s p hr => ?_)
  · rw [k.fill_apply]
    exact if_congr (and_iff_right hr) rfl rfl
  · rw [k.fill_apply, if_neg fun h => hr ⟨h.1, trivial⟩]

namespace FilesSink

theorem fillVis_eq {clip r : Rect} (hr : ∀ p, r.Mem p → clip.Mem p) (color : Color) :
    k.fillVis t color clip r = k.win.fill t color r := by
  refine each_congr fun y hy => if_congr Iff.rfl rfl ?_
  refine each_congr fun x hx => if_pos (hr (x, y) ?_)
  rw [List.mem_range'_1] at hx hy
  exact ⟨hx.1, by dsimp only; omega, hy.1, by dsimp only; omega⟩

theorem fill_clipped (x y rw rh : ℕ) (color : Color) :
    Clipped Rect.Mem All (k.fill t x y rw rh color) := by
  have hcut (r : Rect) : Clipped Rect.Mem All fun clip =>
      if (r.intersect clip).IsEmpty then skip else k.fillVis t color clip (r.intersect clip) := by
    have h := cut_clipped (mem_cut r) (k.win.fill_clipped (t := t) color)
    simp only [← fillVis_eq fun p hp => (Rect.mem_intersect.mp hp).2] at h
    exact h.mono fun _ _ => trivial
  exact .ite .skip (hcut _)

theorem textElide_clipped (x y : ℕ) (s : List Char) (color : Color) (x1 : ℕ) :
    Clipped Rect.Mem All (k.textElide font t x y s color x1) :=
  text_all (satAdd_lt ..) (satAdd_lt ..) ..

theorem blit_clipped (x y : ℕ) (pix : Canvas) : Clipped Rect.Mem All (k.blit t x y pix) := by
  have hput (x y : ℕ) (color : Color) :
      Clipped Rect.Mem All fun clip => if clip.Contains x y then k.put t x y color clip
        else skip := by
    have h : Clipped Rect.Mem (· = (x, y)) fun clip => if clip.Contains x y
        then k.win.put t x y color else skip := by
      rw [k.win.put_eq_touch]
      exact touch_clipped (fun _ => Iff.rfl) _
    refine .mono (R := (· = (x, y))) (fun _ _ => trivial) ?_
    convert h using 3 with clip hc
    exact if_pos hc
  exact .range fun row _ _ => .range fun col _ _ => .ite .skip (hput ..)

theorem draw_clipped (op : SinkOp) : Clipped Rect.Mem All (k.draw font t op) := by
  cases op with
  | fill => exact fill_clipped ..
  | text => exact textElide_clipped ..
  | fillRound => exact fillRound_all ..
  | textElide => exact textElide_clipped ..
  | blit => exact blit_clipped ..
  | icon => exact icon_clipped ..
  | iconBtn => exact iconBtn_clipped ..
  | queryField => exact queryField_clipped ..
  | crumb => exact crumb_clipped ..
  | crumbSep => exact crumbSep_clipped (satAdd_lt ..) ..
  | vsep => exact column_clipped ..
  | listRow => exact listRowFg_clipped ..

end FilesSink

end Clips

end CoeleoOs.Ui
