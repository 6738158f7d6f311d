import CoeleoOs.Lib.Text
import CoeleoOs.Ui.Draw

/-!
# Text, icons and rows

What the painters make of the primitives: text of a font, the icons, and the rows and fields of the
lists. The font is generated by the build; each character takes the glyph of its code, or of `?`.
-/

namespace CoeleoOs.Ui
open CoeleoOs.Lib Pixel Text

namespace Theme

def bg : Color := 0x000F1218
def surface : Color := 0x001C212B
def surfaceRaised : Color := 0x00242B38
def border : Color := 0x00303846
def borderLight : Color := 0x003D4657
def accent : Color := 0x00388BFD
def highlight : Color := 0x001F6FEB
def hover : Color := 0x0028303F
def text : Color := 0x00F0F6FC
def dim : Color := 0x008B949E
def danger : Color := 0x00F85149
def shadow : Color := 0
def overlay : Color := 0x0005070A
def overlayAlpha : UInt8 := 120

end Theme

/-- The cell of a glyph, and for each code its advance and the coverage of its pixels. -/
structure Font where
  w : ℕ
  h : ℕ
  advance : UInt8 → ℕ
  glyphs : UInt8 → ℕ → ℕ → UInt8
  /-- At 11 points it is lower than a title bar. -/
  h_le : h ≤ decoH

def Font.coverage (font : Font) (c : UInt8) (gx gy : ℕ) : UInt8 :=
  if font.w ≤ gx ∨ font.h ≤ gy then 0 else font.glyphs c gx gy

def charCode (c : Char) : UInt8 := if 255 < c.toNat then 0x3F else UInt8.ofNat c.toNat

def Font.textWidth (font : Font) (s : List Char) : ℕ :=
  (s.map fun c => font.advance (charCode c)).foldl satAdd 0

inductive Icon
  | folder | terminal | search | app | close | back | forward | up | min | max | network
  deriving DecidableEq

abbrev iconPx : ℕ := 16

section Texts

variable (font : Font) (t : DrawTarget)

def glyph (cx y : ℕ) (c : UInt8) (color : Color) (xmax : ℕ) (clip : Rect) : Paint :=
  range 0 font.h fun gy => range 0 font.w fun gx =>
    let cov := font.coverage c gx gy
    if cov = 0 then skip
    else
      let px := satAdd cx gx
      let py := satAdd y gy
      if xmax ≤ px then skip else if clip.Contains px py then ink t px py color cov else skip

def textFrom (y : ℕ) (color : Color) (xmax : ℕ) (clip : Rect) : List Char → ℕ → Paint
  | [], _ => skip
  | ch :: s, cx =>
    if xmax ≤ cx then skip
    else draws [glyph font t cx y (charCode ch) color xmax clip,
      textFrom y color xmax clip s (satAdd cx (font.advance (charCode ch)))]

def text (x y : ℕ) (s : List Char) (color : Color) (xmax : ℕ) (clip : Rect) : Paint :=
  textFrom font t y color xmax clip s x

def fitting (budget : ℕ) : List UInt8 → ℕ → ℕ
  | [], _ => 0
  | c :: s, w =>
    let w := satAdd w (font.advance c)
    if budget < w then 0 else fitting budget s w + 1

def dots : List Char := ['.', '.', '.']

def elided (s : List Char) (avail : ℕ) : List Char :=
  if font.textWidth s ≤ avail then s
  else if avail ≤ font.textWidth dots then dots
  else
    let nkeep :=
      min (min (fitting font (avail - font.textWidth dots) (utf8 s) 0) 93) (utf8 s).length
    (fromUtf8 ((utf8 s).take nkeep ++ utf8 dots)).getD dots

def textElide (x y : ℕ) (s : List Char) (color : Color) (xmax : ℕ) (clip : Rect) : Paint :=
  text font t x y (elided font s (xmax - x)) color xmax clip

end Texts

section Icons

variable (t : DrawTarget)

def plot (x y : ℕ) (color : Color) (cov : UInt8) (clip : Rect) : Paint :=
  if cov = 0 then skip else if clip.Contains x y then ink t x y color cov else skip

def lineAa (x0 y0 x1 y1 : ℕ) (c : Color) (clip : Rect) : Paint :=
  let dx := i32 (i32 x1 - i32 x0)
  let dy := i32 (i32 y1 - i32 y0)
  let n := max (max (i32 dx.natAbs) (i32 dy.natAbs)) 1
  each (List.range (n.toNat + 1)) fun i =>
    let x := i32 (i32 x0 + (i32 (dx * i)).tdiv n)
    let y := i32 (i32 y0 + (i32 (dy * i)).tdiv n)
    if x < 0 ∨ y < 0 then skip
    else draws [plot t x.toNat y.toNat c 220 clip, plot t (x.toNat + 1) y.toNat c 90 clip,
      if 0 < y.toNat then plot t x.toNat (y.toNat - 1) c 70 clip
        else skip, plot t x.toNat (y.toNat + 1) c 70 clip]

def iconFolder (x y : ℕ) (c : Color) (clip : Rect) : Paint :=
  draws [fillRound t (x + 2) (y + 4) 12 9 2 c clip, fillRound t (x + 2) (y + 3) 5 3 1 c clip]

def iconTerm (x y : ℕ) (c : Color) (clip : Rect) : Paint :=
  draws [fillRound t (x + 2) (y + 3) 12 10 2 c clip,
    range 0 10 fun i => range 0 8 fun j => plot t (x + 3 + i) (y + 4 + j) Theme.surface 255 clip,
    plot t (x + 5) (y + 7) c 200 clip, plot t (x + 6) (y + 8) c 200 clip,
    plot t (x + 5) (y + 9) c 200 clip, range 8 11 fun col => plot t (x + col) (y + 10) c 200 clip]

def ringCov (d2 inner outer : ℤ) : UInt8 :=
  if d2 < inner - 4 ∨ outer + 4 < d2 then 0
  else if inner ≤ d2 ∧ d2 ≤ outer then 255
  else UInt8.ofNat (255 - (if d2 < inner then inner - d2 else d2 - outer) * 50).toNat

def iconSearch (x y : ℕ) (c : Color) (clip : Rect) : Paint :=
  draws [range 2 12 fun row => range 2 12 fun col =>
      let dx : ℤ := col - 6
      let dy : ℤ := row - 6
      plot t (x + col) (y + row) c (ringCov (dx * dx + dy * dy) 9 16) clip,
    range 0 4 fun i => draws [plot t (x + 10 + i) (y + 10 + i) c 200 clip,
      plot t (x + 11 + i) (y + 10 + i) c 120 clip]]

def iconApp (x y : ℕ) (c : Color) (clip : Rect) : Paint :=
  fillRound t (x + 2) (y + 2) 12 12 3 c clip

def iconClose (x y : ℕ) (c : Color) (clip : Rect) : Paint :=
  draws [lineAa t (x + 4) (y + 4) (x + 11) (y + 11) c clip,
    lineAa t (x + 11) (y + 4) (x + 4) (y + 11) c clip]

def iconMin (x y : ℕ) (c : Color) (clip : Rect) : Paint :=
  fillRound t (x + 3) (y + 10) 10 2 1 c clip

def iconNetwork (x y : ℕ) (c : Color) (clip : Rect) : Paint :=
  draws [fillRound t (x + 3) (y + 9) 2 4 1 c clip, fillRound t (x + 7) (y + 6) 2 7 1 c clip,
    fillRound t (x + 11) (y + 3) 2 10 1 c clip]

def iconMax (x y : ℕ) (c : Color) (restore : Bool) (clip : Rect) : Paint :=
  if restore then draws [strokeRound t (x + 5) (y + 3) 8 8 1 c clip,
    strokeRound t (x + 3) (y + 5) 8 8 1 c clip]
  else strokeRound t (x + 3) (y + 3) 10 10 1 c clip

def iconChev (x y : ℕ) (c : Color) (left : Bool) (clip : Rect) : Paint :=
  if left then draws [lineAa t (x + 10) (y + 4) (x + 5) (y + 8) c clip,
    lineAa t (x + 5) (y + 8) (x + 10) (y + 12) c clip]
  else draws [lineAa t (x + 5) (y + 4) (x + 10) (y + 8) c clip,
    lineAa t (x + 10) (y + 8) (x + 5) (y + 12) c clip]

def iconUp (x y : ℕ) (c : Color) (clip : Rect) : Paint :=
  draws [lineAa t (x + 4) (y + 10) (x + 8) (y + 5) c clip,
    lineAa t (x + 8) (y + 5) (x + 12) (y + 10) c clip]

def icon (which : Icon) (x y : ℕ) (color : Color) (clip : Rect) : Paint :=
  match which with
  | .folder => iconFolder t x y color clip
  | .terminal => iconTerm t x y color clip
  | .search => iconSearch t x y color clip
  | .app => iconApp t x y color clip
  | .close => iconClose t x y color clip
  | .back => iconChev t x y color true clip
  | .forward => iconChev t x y color false clip
  | .up => iconUp t x y color clip
  | .min => iconMin t x y color clip
  | .max => iconMax t x y color false clip
  | .network => iconNetwork t x y color clip

def iconRestore (x y : ℕ) (color : Color) (clip : Rect) : Paint := iconMax t x y color true clip

end Icons

section Rows

variable (font : Font) (t : DrawTarget)

def hoverFill (x y w h : ℕ) (clip : Rect) : Paint := fillRound t x y w h radiusSm Theme.hover clip

def highlightFill (x y w h : ℕ) (clip : Rect) : Paint :=
  fillRound t x y w h radiusSm Theme.highlight clip

def dangerFill (x y w h : ℕ) (clip : Rect) : Paint := fillRound t x y w h radiusSm Theme.danger clip

def column (x y h : ℕ) (g : Color → Color) (clip : Rect) : Paint :=
  if x < clip.x0 ∨ clip.x1 ≤ x then skip
  else range (max y clip.y0) (min (min (satAdd y h) clip.y1) t.h) fun py => touch t x py g

def vsep (x y h : ℕ) (clip : Rect) : Paint :=
  column t x y h (fun dst => blend dst Theme.dim 160) clip

def caret (x y h : ℕ) (clip : Rect) : Paint := column t x y h (fun _ => Theme.text) clip

def scrim (x y w h : ℕ) (clip : Rect) : Paint :=
  let x1 := min (min (satAdd x w) clip.x1) t.w
  let y1 := min (min (satAdd y h) clip.y1) t.h
  let x0 := max x clip.x0
  let y0 := max y clip.y0
  if x1 ≤ x0 ∨ y1 ≤ y0 then skip
  else range y0 y1 fun py => fillSpanBlend t x0 py (x1 - x0) Theme.overlay Theme.overlayAlpha

def queryField (x y w h : ℕ) (s placeholder : List Char) (showCaret searchIcon : Bool)
    (clip : Rect) : Paint :=
  let tx := if searchIcon then satAdd (satAdd x (pad / 2)) iconPx else satAdd x (pad / 2)
  let ty := satAdd y ((h - font.h) / 2)
  let xmax := satAdd x w - pad / 2
  draws [fillStrokeRound t x y w h radiusSm Theme.bg (if showCaret then Theme.accent
    else Theme.border) clip, if searchIcon then
      icon t .search (satAdd x (pad / 2)) (y + (h - iconPx) / 2) (if showCaret then Theme.accent
        else Theme.dim) clip
    else skip,
    if s = [] then text font t tx ty placeholder Theme.dim xmax clip
    else textElide font t tx ty s Theme.text xmax clip,
    if showCaret then
      caret t (if s = [] then tx else min (satAdd tx (font.textWidth s)) (xmax - 1)) ty font.h clip
    else skip]

def listRowFill (x y w h : ℕ) (selected hovered : Bool) (clip : Rect) : Paint :=
  if selected then highlightFill t (satAdd x 2) (satAdd y 1) (w - 4) (h - 2) clip
  else if hovered then hoverFill t (satAdd x 2) (satAdd y 1) (w - 4) (h - 2) clip
  else skip

def listRowFg (x y w h : ℕ) (label : List Char) (which : Option Icon) (selected hovered : Bool)
    (color : Color) (clip : Rect) : Paint :=
  let tx :=
    if which.isSome then satAdd (satAdd x (pad / 2)) (iconPx + pad / 2) else satAdd x (pad / 2)
  draws [listRowFill t x y w h selected hovered clip,
    match which with
    | some ic => icon t ic (satAdd x (pad / 2)) (y + (h - iconPx) / 2) color clip
    | none => skip,
    textElide font t tx (satAdd y ((h - font.h) / 2)) label color (satAdd x w) clip]

def listRow (x y w h : ℕ) (label : List Char) (which : Option Icon) (selected hovered : Bool)
    (clip : Rect) : Paint :=
  listRowFg font t x y w h label which selected hovered Theme.text clip

def listRowBadge (x y w h : ℕ) (label badge : List Char) (which : Icon) (selected hovered : Bool)
    (clip : Rect) : Paint :=
  let bw := satAdd (font.textWidth badge) pad
  let space := satAdd bw (pad / 2)
  let bx := satAdd x w - space
  let by' := satAdd y ((h - (font.h + 2)) / 2)
  draws [listRowFill t x y w h selected hovered clip,
    fillStrokeRound t bx by' bw (font.h + 2) radiusSm (if selected then Theme.highlight
      else Theme.hover) Theme.border clip, text font t (satAdd bx (pad / 2)) (satAdd by' 1) badge
        (if selected then Theme.text else Theme.dim) (satAdd x w) clip,
    icon t which (satAdd x (pad / 2)) (y + (h - iconPx) / 2) Theme.text clip,
    textElide font t (satAdd (satAdd x (pad / 2)) (iconPx + pad / 2)) (satAdd y ((h - font.h) / 2))
      label Theme.text (satAdd x w - space) clip]

def iconBtn (x y : ℕ) (which : Icon) (hovered enabled : Bool) (clip : Rect) : Paint :=
  draws [if enabled && hovered then hoverFill t x y 24 24 clip else skip,
    icon t which (satAdd x 4) (satAdd y 4) (if enabled then Theme.text else Theme.dim) clip]

def crumbWidth (label : List Char) : ℕ := satAdd (font.textWidth label) pad

def crumb (x y h : ℕ) (label : List Char) (hovered : Bool) (clip : Rect) : Paint :=
  let w := crumbWidth font label
  draws [if hovered then fillStrokeRound t x y w h radiusSm Theme.hover Theme.borderLight clip
    else fillStrokeRound t x y w h radiusSm Theme.surfaceRaised Theme.border clip,
    text font t (satAdd x (pad / 2)) (satAdd y ((h - font.h) / 2)) label Theme.text
      (satAdd x w) clip]

def crumbSep (x y h : ℕ) (clip : Rect) : Paint :=
  text font t x (satAdd y ((h - font.h) / 2)) ['>'] Theme.dim
    (satAdd x (satAdd (font.textWidth ['>']) (gap / 2))) clip

end Rows

section Clips

variable {font : Font} {t : DrawTarget}

theorem satAdd_eq {a b : ℕ} (h : a + b < 2 ^ 32) : satAdd a b = a + b := min_eq_left (by omega)

theorem satAdd_lt (a b : ℕ) : satAdd a b < 2 ^ 32 := by
  rw [satAdd]
  omega

theorem touch_clipped {ι : Type*} {mem : ι → ℕ × ℕ → Prop} {guard : ι → Prop}
    [∀ c, Decidable (guard c)] {x y : ℕ} (hguard : ∀ c, guard c ↔ mem c (x, y))
    (g : Color → Color) : Clipped mem (· = (x, y)) fun c => if guard c then touch t x y g
      else skip := by
  refine .of_formula (fun p dst => if t.Has p then g dst else dst) ?_ ?_
  · rintro c s p hc rfl
    rw [if_pos ((hguard c).mpr hc), touch_apply]
    exact if_congr (and_iff_right rfl) rfl rfl
  · intro c s p hp
    split
    · rename_i hc
      rw [touch_apply, if_neg]
      rintro ⟨rfl, -⟩
      exact hp ⟨(hguard c).mp hc, rfl⟩
    · rfl

abbrev Before (c : ℕ × Rect) (p : ℕ × ℕ) : Prop := p.1 < c.1 ∧ c.2.Mem p

/-- From the corner on, in the lines of one row of text. -/
def Line (font : Font) (x y : ℕ) (p : ℕ × ℕ) : Prop := x ≤ p.1 ∧ y ≤ p.2 ∧ p.2 < y + font.h

theorem glyph_clipped {x y : ℕ} (hx : x < 2 ^ 32) (hy : y < 2 ^ 32) (c : UInt8) (color : Color) :
    Clipped Before (Line font x y) fun b => glyph font t x y c color b.1 b.2 := by
  refine .range fun gy _ hgy => .range fun gx _ _ => .ite .skip ?_
  have h : Clipped Before (· = (satAdd x gx, satAdd y gy)) fun b =>
      if ¬ b.1 ≤ satAdd x gx ∧ b.2.Contains (satAdd x gx) (satAdd y gy) then
        touch t (satAdd x gx) (satAdd y gy) (inked color (font.coverage c gx gy))
      else skip :=
    touch_clipped (fun b => and_congr_left' not_le) _
  refine .mono (R := (· = (satAdd x gx, satAdd y gy))) ?_ ?_
  · rintro p rfl
    simp only [Line, satAdd]
    omega
  · convert h using 2 with b
    by_cases hle : b.1 ≤ satAdd x gx
    · rw [if_pos hle, if_neg fun hin => hin.1 hle]
    · rw [if_neg hle, ink_eq_touch]
      exact if_congr (and_iff_right hle).symm rfl rfl

theorem textFrom_clipped {y : ℕ} (hy : y < 2 ^ 32) (color : Color) (s : List Char) {x : ℕ}
    (hx : x < 2 ^ 32) :
    Clipped Before (Line font x y) fun b => textFrom font t y color b.1 b.2 s x := by
  induction s generalizing x with
  | nil => exact .skip
  | cons ch s ih =>
    refine .guarded (fun b p hp hin hle => ?_)
      (.cons (glyph_clipped hx hy ..) (.cons (.mono ?_ (ih (satAdd_lt ..))) .nil))
    · exact absurd (hin.1.trans_lt hp.1) (not_lt.mpr hle)
    · rintro p ⟨h1, h2⟩
      refine ⟨le_trans ?_ h1, h2⟩
      rw [satAdd]
      omega

theorem text_clipped {x y : ℕ} (hx : x < 2 ^ 32) (hy : y < 2 ^ 32) (s : List Char) (color : Color)
    (xmax : ℕ) :
    Clipped Rect.Mem (fun p => p.1 < xmax ∧ Line font x y p) (text font t x y s color xmax) :=
  .via (φ := fun clip => (xmax, clip)) (fun _ _ => and_comm) (textFrom_clipped hy color s hx)

theorem plot_clipped (x y : ℕ) (color : Color) (cov : UInt8) :
    Clipped Rect.Mem (· = (x, y)) (plot t x y color cov) := by
  refine .ite .skip ?_
  rw [ink_eq_touch]
  exact touch_clipped (fun _ => Iff.rfl) _

def IconBox (x y : ℕ) (p : ℕ × ℕ) : Prop := x ≤ p.1 ∧ p.1 < x + iconPx ∧ y ≤ p.2 ∧ p.2 < y + iconPx

instance (x y : ℕ) (p : ℕ × ℕ) : Decidable (IconBox x y p) := inferInstanceAs (Decidable (_ ∧ _))

abbrev All (_ : ℕ × ℕ) : Prop := True

theorem lineAa_clipped (x0 y0 x1 y1 : ℕ) (c : Color) :
    Clipped Rect.Mem All (lineAa t x0 y0 x1 y1 c) := by
  refine .each fun i _ => .ite .skip ?_
  have hplot (x y : ℕ) (cov : UInt8) : Clipped Rect.Mem All (plot t x y c cov) :=
    .mono (fun _ _ => trivial) (plot_clipped x y c cov)
  exact .cons (hplot ..) (.cons (hplot ..) (.cons (.ite (hplot ..) .skip) (.cons (hplot ..) .nil)))

theorem fillRound_cell {x y dx dy w h : ℕ} (hx : dx + w ≤ iconPx) (hy : dy + h ≤ iconPx) (r : ℕ)
    (c : Color) : Clipped Rect.Mem (IconBox x y) (fillRound t (x + dx) (y + dy) w h r c) := by
  refine .mono (fun p hp => ?_) (fillRound_clipped ..)
  simp only [Within, satAdd] at hp
  simp only [IconBox]
  omega

theorem strokeRound_cell {x y dx dy w h : ℕ} (hx : dx + w ≤ iconPx) (hy : dy + h ≤ iconPx) (r : ℕ)
    (c : Color) : Clipped Rect.Mem (IconBox x y) (strokeRound t (x + dx) (y + dy) w h r c) := by
  refine .mono (fun p hp => ?_) (strokeRound_clipped ..)
  simp only [Within, satAdd] at hp
  simp only [IconBox]
  omega

theorem plot_cell {x y px py : ℕ} (hx : x ≤ px ∧ px < x + 16) (hy : y ≤ py ∧ py < y + 16)
    (c : Color) (cov : UInt8) : Clipped Rect.Mem (IconBox x y) (plot t px py c cov) := by
  refine .mono ?_ (plot_clipped px py c cov)
  rintro p rfl
  exact ⟨hx.1, hx.2, hy⟩

theorem iconFolder_cell (x y : ℕ) (c : Color) :
    Clipped Rect.Mem (IconBox x y) (iconFolder t x y c) :=
  .cons (fillRound_cell (by decide) (by decide) ..)
    (.cons (fillRound_cell (by decide) (by decide) ..) .nil)

theorem iconTerm_cell (x y : ℕ) (c : Color) :
    Clipped Rect.Mem (IconBox x y) (iconTerm t x y c) := by
  refine .cons (fillRound_cell (by decide) (by decide) ..)
    (.cons ?_ (.cons ?_ (.cons ?_ (.cons ?_ (.cons ?_ .nil)))))
  · exact .range fun i _ hi => .range fun j _ hj =>
      plot_cell ⟨by omega, by omega⟩ ⟨by omega, by omega⟩ ..
  · exact plot_cell ⟨by omega, by omega⟩ ⟨by omega, by omega⟩ ..
  · exact plot_cell ⟨by omega, by omega⟩ ⟨by omega, by omega⟩ ..
  · exact plot_cell ⟨by omega, by omega⟩ ⟨by omega, by omega⟩ ..
  · exact .range fun col _ hcol => plot_cell ⟨by omega, by omega⟩ ⟨by omega, by omega⟩ ..

theorem iconApp_cell (x y : ℕ) (c : Color) : Clipped Rect.Mem (IconBox x y) (iconApp t x y c) :=
  fillRound_cell (by decide) (by decide) ..

theorem iconMin_cell (x y : ℕ) (c : Color) : Clipped Rect.Mem (IconBox x y) (iconMin t x y c) :=
  fillRound_cell (by decide) (by decide) ..

theorem iconMax_cell (x y : ℕ) (c : Color) (restore : Bool) :
    Clipped Rect.Mem (IconBox x y) (iconMax t x y c restore) := by
  refine .ite (.cons ?_ (.cons ?_ .nil)) ?_
  · exact strokeRound_cell (by decide) (by decide) ..
  · exact strokeRound_cell (by decide) (by decide) ..
  · exact strokeRound_cell (by decide) (by decide) ..

theorem i32_of_lt {n : ℤ} (h0 : -2 ^ 31 ≤ n) (h1 : n < 2 ^ 31) : i32 n = n := by
  rw [i32]
  exact Int.bmod_eq_of_le (by omega) (by omega)

theorem i32_of_nat {n : ℕ} (h : n < 2 ^ 31) : i32 n = n := i32_of_lt (by omega) (by omega)

theorem diagonal_at {x x0 i : ℕ} {d : ℤ} (hx : x + 16 < 2 ^ 31)
    (h : d = 7 ∧ x0 = x + 4 ∨ d = -7 ∧ x0 = x + 11) (hi : i ≤ 7) :
    ∃ m : ℕ, i32 (i32 x0 + (i32 (d * i)).tdiv 7) = m ∧ x + 4 ≤ m ∧ m ≤ x + 11 := by
  rw [i32_of_nat (by omega)]
  rcases h with ⟨rfl, rfl⟩ | ⟨rfl, rfl⟩
  · have htdiv : (i32 (7 * i)).tdiv 7 = i := by
      rw [i32_of_lt (by omega) (by omega)]
      exact Int.mul_tdiv_cancel_left _ (by decide)
    rw [htdiv, i32_of_lt (by omega) (by omega)]
    exact ⟨x + 4 + i, rfl, by omega⟩
  · have htdiv : (i32 (-7 * i)).tdiv 7 = -i := by
      rw [i32_of_lt (by omega) (by omega), Int.neg_mul, Int.neg_tdiv,
        Int.mul_tdiv_cancel_left _ (by decide)]
    rw [htdiv, i32_of_lt (by omega) (by omega)]
    exact ⟨x + 11 - i, by omega, by omega⟩

theorem lineAa_cell {x y x0 x1 : ℕ} (hx : x + 16 < 2 ^ 31) (hy : y + 16 < 2 ^ 31) (c : Color)
    (h : x0 = x + 4 ∧ x1 = x + 11 ∨ x0 = x + 11 ∧ x1 = x + 4) :
    Clipped Rect.Mem (IconBox x y) (lineAa t x0 (y + 4) x1 (y + 11) c) := by
  have hdy : i32 (i32 (y + 11 : ℕ) - i32 (y + 4 : ℕ)) = 7 := by
    rw [i32_of_nat (by omega), i32_of_nat (by omega)]
    exact (i32_of_lt (by omega) (by omega)).trans (by omega)
  obtain ⟨d, hdx, hd⟩ :
      ∃ d : ℤ, i32 (i32 x1 - i32 x0) = d ∧ (d = 7 ∧ x0 = x + 4 ∨ d = -7 ∧ x0 = x + 11) := by
    rw [i32_of_nat (n := x1) (by omega), i32_of_nat (by omega), i32_of_lt (by omega) (by omega)]
    exact ⟨_, rfl, by omega⟩
  have hn : max (max (i32 d.natAbs) (i32 (7 : ℤ).natAbs)) 1 = 7 := by
    rcases hd with ⟨rfl, -⟩ | ⟨rfl, -⟩
    · decide
    · decide
  unfold lineAa
  simp only [hdy, hdx, hn]
  refine .each fun i hi => ?_
  have hi : i ≤ 7 := Nat.le_of_lt_succ (List.mem_range.mp hi)
  obtain ⟨px, hpx, hx4, hx11⟩ := diagonal_at hx hd hi
  obtain ⟨py, hpy, hy4, hy11⟩ := diagonal_at hy (Or.inl ⟨rfl, rfl⟩) hi
  rw [hpx, hpy, Int.toNat_natCast, Int.toNat_natCast]
  refine .ite .skip (.cons ?_ (.cons ?_ (.cons (.ite ?_ .skip) (.cons ?_ .nil))))
  · exact plot_cell (by omega) (by omega) c 220
  · exact plot_cell (by omega) (by omega) c 90
  · exact plot_cell (by omega) (by omega) c 70
  · exact plot_cell (by omega) (by omega) c 70

theorem iconClose_cell {x y : ℕ} (hx : x + 16 < 2 ^ 31) (hy : y + 16 < 2 ^ 31) (c : Color) :
    Clipped Rect.Mem (IconBox x y) (iconClose t x y c) :=
  .cons (lineAa_cell hx hy c (Or.inl ⟨rfl, rfl⟩))
    (.cons (lineAa_cell hx hy c (Or.inr ⟨rfl, rfl⟩)) .nil)

theorem cell_all {x y : ℕ} {P : Rect → Paint} (h : Clipped Rect.Mem (IconBox x y) P) :
    Clipped Rect.Mem All P :=
  .mono (fun _ _ => trivial) h

theorem fillRound_all (x y w h r : ℕ) (c : Color) :
    Clipped Rect.Mem All (fillRound t x y w h r c) :=
  .mono (fun _ _ => trivial) (fillRound_clipped ..)

theorem fillStrokeRound_all (x y w h r : ℕ) (fill stroke : Color) :
    Clipped Rect.Mem All (fillStrokeRound t x y w h r fill stroke) :=
  .mono (fun _ _ => trivial) (fillStrokeRound_clipped ..)

theorem plot_all (x y : ℕ) (c : Color) (cov : UInt8) : Clipped Rect.Mem All (plot t x y c cov) :=
  .mono (fun _ _ => trivial) (plot_clipped x y c cov)

theorem text_all {x y : ℕ} (hx : x < 2 ^ 32) (hy : y < 2 ^ 32) (s : List Char) (color : Color)
    (xmax : ℕ) : Clipped Rect.Mem All (text font t x y s color xmax) :=
  .mono (fun _ _ => trivial) (text_clipped hx hy s color xmax)

theorem iconSearch_clipped (x y : ℕ) (c : Color) : Clipped Rect.Mem All (iconSearch t x y c) := by
  refine .cons (.range fun _ _ _ => .range fun _ _ _ => plot_all ..)
    (.cons (.range fun _ _ _ => ?_) .nil)
  exact .cons (plot_all ..) (.cons (plot_all ..) .nil)

theorem iconChev_clipped (x y : ℕ) (c : Color) (left : Bool) :
    Clipped Rect.Mem All (iconChev t x y c left) :=
  .ite (.cons (lineAa_clipped ..) (.cons (lineAa_clipped ..) .nil))
    (.cons (lineAa_clipped ..) (.cons (lineAa_clipped ..) .nil))

theorem iconNetwork_clipped (x y : ℕ) (c : Color) : Clipped Rect.Mem All (iconNetwork t x y c) :=
  .cons (fillRound_all ..) (.cons (fillRound_all ..) (.cons (fillRound_all ..) .nil))

theorem iconLines_clipped (x0 y0 x1 y1 x2 y2 x3 y3 : ℕ) (c : Color) :
    Clipped Rect.Mem All fun clip =>
      draws [lineAa t x0 y0 x1 y1 c clip, lineAa t x2 y2 x3 y3 c clip] :=
  .cons (lineAa_clipped ..) (.cons (lineAa_clipped ..) .nil)

theorem icon_clipped (which : Icon) (x y : ℕ) (c : Color) :
    Clipped Rect.Mem All (icon t which x y c) := by
  cases which with
  | folder => exact cell_all (iconFolder_cell x y c)
  | terminal => exact cell_all (iconTerm_cell x y c)
  | search => exact iconSearch_clipped x y c
  | app => exact cell_all (iconApp_cell x y c)
  | close => exact iconLines_clipped _ _ _ _ _ _ _ _ c
  | back => exact iconChev_clipped x y c true
  | forward => exact iconChev_clipped x y c false
  | up => exact iconLines_clipped _ _ _ _ _ _ _ _ c
  | min => exact cell_all (iconMin_cell x y c)
  | max => exact cell_all (iconMax_cell x y c false)
  | network => exact iconNetwork_clipped x y c

theorem column_clipped (x y h : ℕ) (g : Color → Color) :
    Clipped Rect.Mem All (column t x y h g) := by
  have hcol (clip : Rect) (s : ℕ × ℕ → Color) (p : ℕ × ℕ) :
      range (max y clip.y0) (min (min (satAdd y h) clip.y1) t.h) (fun py => touch t x py g) s p =
        if max y clip.y0 ≤ p.2 ∧ p.2 < min (min (satAdd y h) clip.y1) t.h then
          if p.1 = x ∧ t.Has p then g (s p) else s p
        else s p := by
    refine range_slices Prod.snd (fun p c => if p.1 = x ∧ t.Has p then g c else c) ?_ ?_ s p
    · rintro i s p - rfl
      rw [touch_apply]
      exact if_congr (by rw [Prod.ext_iff]; simp) rfl rfl
    · intro i s p _ hp
      rw [touch_apply, if_neg]
      rintro ⟨rfl, -⟩
      exact hp rfl
  refine .of_formula (fun p c => if y ≤ p.2 ∧ p.2 < satAdd y h ∧ p.1 = x ∧ t.Has p then g c
    else c) ?_ ?_
  · rintro c s p ⟨h1, h2, h3, h4⟩ -
    rw [column]
    by_cases hx : x < c.x0 ∨ c.x1 ≤ x
    · rw [if_pos hx, if_neg (by omega)]
      rfl
    · rw [if_neg hx, hcol]
      by_cases hp : p.1 = x ∧ t.Has p
      · have hh : p.2 < t.h := hp.2.2
        rw [if_pos hp]
        exact if_congr ⟨fun h => ⟨by omega, by omega, hp⟩, fun h => by omega⟩ rfl rfl
      · rw [if_neg hp, ite_self, if_neg fun h => hp h.2.2]
  · intro c s p hp
    rw [column]
    by_cases hx : x < c.x0 ∨ c.x1 ≤ x
    · rw [if_pos hx]
      rfl
    · rw [if_neg hx, hcol]
      split
      · rw [if_neg]
        rintro ⟨rfl, -⟩
        exact hp ⟨⟨by omega, by omega, by omega, by omega⟩, trivial⟩
      · rfl

theorem scrim_clipped (x y w h : ℕ) : Clipped Rect.Mem (Within x y w h) (scrim t x y w h) := by
  have h := rows_clipped t x y w h False (fun _ => inked Theme.overlay Theme.overlayAlpha)
    (fun py x0 x1 => fillSpanBlend t x0 py (x1 - x0) Theme.overlay Theme.overlayAlpha) fun py x0 x1
      s p _ _ => by
      rw [fillSpanBlend_apply]
      exact if_congr (and_congr_right fun _ => and_congr_right fun h0 => and_congr_left' (by omega))
        rfl rfl
  simp only [or_false] at h
  exact h

theorem queryField_clipped (x y w h : ℕ) (s placeholder : List Char) (showCaret searchIcon : Bool) :
    Clipped Rect.Mem All (queryField font t x y w h s placeholder showCaret searchIcon) := by
  have htx :
      (if searchIcon then satAdd (satAdd x (pad / 2)) iconPx else satAdd x (pad / 2)) < 2 ^ 32 := by
    split
    · exact satAdd_lt ..
    · exact satAdd_lt ..
  unfold queryField
  refine .cons (fillStrokeRound_all ..)
    (.cons (.ite (icon_clipped ..) .skip) (.cons ?_ (.cons ?_ .nil)))
  · exact .ite (text_all htx (satAdd_lt ..) ..) (text_all htx (satAdd_lt ..) ..)
  · exact .ite (column_clipped ..) .skip

theorem listRowFill_clipped (x y w h : ℕ) (selected hovered : Bool) :
    Clipped Rect.Mem All (listRowFill t x y w h selected hovered) :=
  .ite (fillRound_all ..) (.ite (fillRound_all ..) .skip)

theorem listRowFg_clipped (x y w h : ℕ) (label : List Char) (which : Option Icon)
    (selected hovered : Bool) (color : Color) :
    Clipped Rect.Mem All (listRowFg font t x y w h label which selected hovered color) := by
  unfold listRowFg
  refine .cons (listRowFill_clipped ..) (.cons ?_ (.cons ?_ .nil))
  · cases which with
    | none => exact .skip
    | some ic => exact icon_clipped ..
  · refine text_all ?_ (satAdd_lt ..) ..
    split
    · exact satAdd_lt ..
    · exact satAdd_lt ..

theorem listRow_clipped (x y w h : ℕ) (label : List Char) (which : Option Icon)
    (selected hovered : Bool) :
    Clipped Rect.Mem All (listRow font t x y w h label which selected hovered) :=
  listRowFg_clipped ..

theorem listRowBadge_clipped (x y w h : ℕ) (label badge : List Char) (which : Icon)
    (selected hovered : Bool) :
    Clipped Rect.Mem All (listRowBadge font t x y w h label badge which selected hovered) := by
  unfold listRowBadge
  exact .cons (listRowFill_clipped ..)
    (.cons (fillStrokeRound_all ..) (.cons (text_all (satAdd_lt ..) (satAdd_lt ..) ..)
    (.cons (icon_clipped ..) (.cons (text_all (satAdd_lt ..) (satAdd_lt ..) ..) .nil))))

theorem iconBtn_clipped (x y : ℕ) (which : Icon) (hovered enabled : Bool) :
    Clipped Rect.Mem All (iconBtn t x y which hovered enabled) :=
  .cons (.ite (fillRound_all ..) .skip) (.cons (icon_clipped ..) .nil)

theorem crumb_clipped (x y h : ℕ) (label : List Char) (hovered : Bool) :
    Clipped Rect.Mem All (crumb font t x y h label hovered) := by
  unfold crumb
  exact .cons (.ite (fillStrokeRound_all ..) (fillStrokeRound_all ..))
    (.cons (text_all (satAdd_lt ..) (satAdd_lt ..) ..) .nil)

theorem crumbSep_clipped {x : ℕ} (hx : x < 2 ^ 32) (y h : ℕ) :
    Clipped Rect.Mem All (crumbSep font t x y h) :=
  text_all hx (satAdd_lt ..) ..

end Clips

end CoeleoOs.Ui
