import CoeleoOs.Ui.Chrome
import CoeleoOs.Ui.Sink

/-!
# What the compositor paints from

The state that a repaint reads, and the parts of a repaint that windows and popups share: the
wallpaper, the ring of shadow and the pictures that windows hold. The canvas of the terminal is not
in it, since the terminal has its own. The framebuffer has at least the size the compositor starts
on, its windows lie far below `2 ^ 31`, and the terminal has one window at most.
-/

namespace CoeleoOs.Ui
open CoeleoOs.Lib Pixel

/-- A window far below `2 ^ 31`. -/
structure Frame.Placed (f : Frame) : Prop where
  ox_lt : f.ox < 2 ^ 30
  oy_lt : f.oy < 2 ^ 30
  cw_lt : f.cw < 2 ^ 29
  ch_lt : f.ch < 2 ^ 29

structure View where
  scr : Screen
  font : Font
  mode : PanelMode
  wm : Wm
  menus : Menus
  cx : ℤ
  cy : ℤ
  /-- Without pixels where there is none. -/
  wallpaper : Canvas
  /-- The surfaces of the programs, each with its number. -/
  clients : List (ℕ × Canvas)
  filesTitle : List Char
  /-- What the file manager draws in a window of a given size, after its background. -/
  files : ℕ → ℕ → List SinkOp
  settings : ℕ → ℕ → List SinkOp
  runnerCaret : Bool
  deskMenuX : ℕ
  deskMenuY : ℕ
  filesMenuX : ℕ
  filesMenuY : ℕ
  menuFlags : MenuFlags
  toast : List Char
  wide : 480 ≤ scr.w
  tall : 200 ≤ scr.h
  w_lt : scr.w < 2 ^ 30
  h_lt : scr.h < 2 ^ 30
  placed : ∀ f ∈ wm.frames, f.Placed
  single : (wm.frames.filter fun f => f.kind = .vt).length ≤ 1

namespace View

variable (v : View)

def tgt : DrawTarget := ⟨v.scr.w, v.scr.h⟩

def hWork : ℕ := workH v.scr v.mode

def workRect : Rect := ⟨0, 0, v.scr.w, v.hWork⟩

def mx : ℕ := v.cx.toNat

def my : ℕ := v.cy.toNat

section Wallpaper

def hasWall : Prop := v.wallpaper.pix.size ≠ 0 ∧ v.wallpaper.w ≠ 0 ∧ v.wallpaper.h ≠ 0

instance : Decidable v.hasWall := inferInstanceAs (Decidable (_ ∧ _))

def wallPx (x y : ℕ) : Color :=
  if ¬ v.hasWall then Theme.bg
  else
    let sx :=
      if v.wallpaper.w = v.scr.w then min x (v.wallpaper.w - 1)
      else min (x * v.wallpaper.w) (2 ^ 32 - 1) / max v.scr.w 1
    let sy := min y (v.wallpaper.h - 1)
    let src := sy * v.wallpaper.w + sx
    if src < v.wallpaper.pix.size then v.wallpaper.pix.getD src 0 &&& 0x00FFFFFF else Theme.bg

def fillRectR (r : Rect) : Paint :=
  let x0 := min r.x0 v.scr.w
  let y0 := min r.y0 v.hWork
  let x1 := min r.x1 v.scr.w
  let y1 := min r.y1 v.hWork
  if x1 ≤ x0 ∨ y1 ≤ y0 then skip
  else if v.hasWall ∧ v.wallpaper.w = v.scr.w then
    range y0 y1 fun y =>
      let src := min y (v.wallpaper.h - 1) * v.wallpaper.w + x0
      if src + (x1 - x0) ≤ v.wallpaper.pix.size then
        range x0 x1 fun x => put v.tgt x y (v.wallpaper.pix.getD (src + (x - x0)) 0)
      else skip
  else if v.hasWall then range y0 y1 fun y => range x0 x1 fun x => put v.tgt x y (v.wallPx x y)
  else range y0 y1 fun y => fillSpan v.tgt x0 y (x1 - x0) Theme.bg

def basePx (p : ℕ × ℕ) : Color :=
  if v.hasWall ∧ v.wallpaper.w = v.scr.w then v.wallpaper.at' p.1 (min p.2 (v.wallpaper.h - 1))
  else if v.hasWall then v.wallPx p.1 p.2
  else Theme.bg

end Wallpaper

end View

section Shadow

variable (t : DrawTarget)

def shadowA (i : ℕ) : UInt8 := [44, 30, 22, 16, 11, 7, 4, 2].getD i 0

def Rect.sdf (op : Rect) (x y : ℕ) : ℕ :=
  roundSdf x y op.x0 op.y0 (op.x1 - op.x0) (op.y1 - op.y0) radius

def shadePx (op : Rect) (x y : ℕ) : Paint :=
  let d := op.sdf x y
  if d = 0 ∨ shadowPx < d then skip else touch t x y fun dst =>
    blendFb dst Theme.shadow (shadowA (d - 1))

def shadowBands (op sh : Rect) : List Rect :=
  [⟨sh.x0, sh.y0, sh.x1, op.y0⟩, ⟨sh.x0, op.y1, sh.x1, sh.y1⟩, ⟨sh.x0, op.y0, op.x0, op.y1⟩,
    ⟨op.x1, op.y0, sh.x1, op.y1⟩, ⟨op.x0, op.y0, satAdd op.x0 radius, satAdd op.y0 radius⟩,
    ⟨op.x1 - radius, op.y0, op.x1, satAdd op.y0 radius⟩, ⟨op.x0, op.y1 - radius,
      satAdd op.x0 radius, op.y1⟩, ⟨op.x1 - radius, op.y1 - radius, op.x1, op.y1⟩]

def shadeRing (bands : List Rect) (px : ℕ → ℕ → Paint) (clip : Rect) : Paint :=
  each bands fun band =>
    let vis := clip.intersect band
    if vis.IsEmpty then skip else range vis.y0 vis.y1 fun y => range vis.x0 vis.x1 fun x => px x y

end Shadow

section Blit

variable (t : DrawTarget)

def blitU32At (x y : ℕ) (src : Canvas) (sx sy w : ℕ) : Paint :=
  if w = 0 ∨ t.w ≤ x ∨ t.h ≤ y then skip
  else
    let w := min w (t.w - x)
    let off := sy * src.w + sx
    if src.pix.size < off + w then skip else range x (x + w) fun px =>
      put t px y (src.pix.getD (off + (px - x)) 0)

def blitPx (x y : ℕ) (src : Canvas) (sx sy : ℕ) (k : RoundWin) : Paint :=
  let off := sy * src.w + sx
  if off < src.pix.size then k.put t x y (src.pix.getD off 0 &&& 0x00FFFFFF) else skip

def blitCols (dx y : ℕ) (src : Canvas) (sx sy w : ℕ) (k : RoundWin) (col : ℕ) : Paint :=
  if hcol : w ≤ col then skip
  else
    let x := satAdd dx col
    let mid := min (satAdd k.wx k.ww - radius - x) (w - col)
    if ¬ (y < satAdd k.wy radius ∨ satAdd k.wy k.wh ≤ y + radius) ∧ satAdd k.wx radius ≤ x ∧
        x + radius < satAdd k.wx k.ww ∧ 0 < mid then
      draws [blitU32At t x y src (satAdd sx col) sy mid, blitCols dx y src sx sy w k (col + mid)]
    else draws [blitPx t x y src (satAdd sx col) sy k, blitCols dx y src sx sy w k (col + 1)]
termination_by w - col

def blitU32AtRound (dx dy : ℕ) (src : Canvas) (sx sy w h : ℕ) (k : RoundWin) : Paint :=
  if w = 0 ∨ h = 0 ∨ t.w ≤ dx ∨ t.h ≤ dy then skip
  else
    range 0 (min h (t.h - dy)) fun row =>
      blitCols t dx (satAdd dy row) src sx (satAdd sy row) (min w (t.w - dx)) k 0

def blitVis (cx cy : ℕ) (src : Canvas) (k : RoundWin) (vis : Rect) : Paint :=
  let sx := vis.x0 - cx
  let sy := vis.y0 - cy
  let w := min (vis.x1 - vis.x0) (src.w - sx)
  let h := min (vis.y1 - vis.y0) (src.h - sy)
  if w = 0 ∨ h = 0 then skip else blitU32AtRound t vis.x0 vis.y0 src sx sy w h k

end Blit

section Formulas

variable {t : DrawTarget}

theorem hWork_bounds (v : View) : v.hWork + 32 ≤ v.scr.h ∧ v.scr.h ≤ v.hWork + 39 := by
  have h := v.tall
  rw [View.hWork]
  cases v.mode with
  | float =>
    have hsat : satAdd panelH panelMargin = 39 := by decide
    rw [workH, hsat]
    omega
  | full =>
    show v.scr.h - 32 + 32 ≤ v.scr.h ∧ v.scr.h ≤ v.scr.h - 32 + 39
    omega

theorem Canvas.row_le (c : Canvas) {x y : ℕ} (hy : y < c.h) (hx : x ≤ c.w) :
    y * c.w + x ≤ c.pix.size := by
  calc y * c.w + x ≤ y * c.w + c.w := Nat.add_le_add_left hx _
    _ = (y + 1) * c.w := (Nat.succ_mul y c.w).symm
    _ ≤ c.h * c.w := Nat.mul_le_mul_right _ hy
    _ = c.pix.size := (Nat.mul_comm _ _).trans c.size_eq.symm

theorem putRow_apply (x0 x1 y : ℕ) (color : ℕ → Color) (s : ℕ × ℕ → Color) (p : ℕ × ℕ) :
    range x0 x1 (fun x => put t x y (color x)) s p =
      if p.2 = y ∧ x0 ≤ p.1 ∧ p.1 < x1 ∧ t.Has p then color p.1 else s p :=
  row_apply t (g := fun x _ => color x) (fun x s p => touch_apply t x y (fun _ => color x) s p) s p

theorem fillRectR_apply (v : View) (r : Rect) (s : ℕ × ℕ → Color) (p : ℕ × ℕ) :
    v.fillRectR r s p = if (r.intersect v.workRect).Mem p then v.basePx p else s p := by
  have hwork := (hWork_bounds v).1
  have hmem : (⟨min r.x0 v.scr.w, min r.y0 v.hWork, min r.x1 v.scr.w, min r.y1 v.hWork⟩ : Rect).Mem
      p ∧ v.tgt.Has p ↔ (r.intersect v.workRect).Mem p := by
    simp only [Rect.Mem, Rect.Contains, Rect.intersect, View.workRect, DrawTarget.Has, View.tgt]
    omega
  rw [View.fillRectR]
  dsimp only
  by_cases hempty : min r.x1 v.scr.w ≤ min r.x0 v.scr.w ∨ min r.y1 v.hWork ≤ min r.y0 v.hWork
  · rw [if_pos hempty, if_neg]
    · rfl
    · rw [← hmem]
      rintro ⟨⟨h1, h2, h3, h4⟩, -⟩
      dsimp only at h1 h2 h3 h4
      omega
  rw [if_neg hempty, ← if_congr hmem rfl rfl]
  by_cases hcopy : v.hasWall ∧ v.wallpaper.w = v.scr.w
  · rw [if_pos hcopy, block_apply (G := fun p _ => v.basePx p)]
    intro y s p
    have hle :
        min y (v.wallpaper.h - 1) * v.wallpaper.w + min r.x0
          v.scr.w + (min r.x1 v.scr.w - min r.x0 v.scr.w) ≤
        v.wallpaper.pix.size := by
      have hrow : min y (v.wallpaper.h - 1) < v.wallpaper.h := by
        have := hcopy.1.2.2
        omega
      have hend : min r.x0 v.scr.w + (min r.x1 v.scr.w - min r.x0 v.scr.w) ≤ v.wallpaper.w := by
        rw [hcopy.2]
        omega
      have := v.wallpaper.row_le hrow hend
      omega
    rw [if_pos hle, putRow_apply]
    by_cases hp : p.2 = y ∧ min r.x0 v.scr.w ≤ p.1 ∧ p.1 < min r.x1 v.scr.w ∧ v.tgt.Has p
    · obtain ⟨rfl, h0, h1⟩ := hp
      rw [if_pos ⟨rfl, h0, h1⟩, if_pos ⟨rfl, h0, h1⟩, View.basePx, if_pos hcopy, Canvas.at']
      congr 1
      omega
    · rw [if_neg hp, if_neg hp]
  rw [if_neg hcopy]
  by_cases hwall : v.hasWall
  · rw [if_pos hwall, block_apply (G := fun p _ => v.basePx p)]
    intro y s p
    rw [putRow_apply]
    by_cases hp : p.2 = y ∧ min r.x0 v.scr.w ≤ p.1 ∧ p.1 < min r.x1 v.scr.w ∧ v.tgt.Has p
    · rw [if_pos hp, if_pos hp, View.basePx, if_neg hcopy, if_pos hwall, hp.1]
    · rw [if_neg hp, if_neg hp]
  · rw [if_neg hwall, block_apply (G := fun p _ => v.basePx p)]
    intro y s p
    rw [fillSpan_apply, View.basePx, if_neg hcopy, if_neg hwall]
    exact if_congr (and_congr_right fun _ => and_congr_right fun h0 => and_congr_left' (by omega))
      rfl rfl

theorem shadeRing_clipped {bands : List Rect} {px : ℕ → ℕ → Paint} {g : ℕ × ℕ → Color → Color}
    {N : ℕ × ℕ → Prop} (hpx : ∀ x y s p, px x y s p = if p = (x, y) ∧ t.Has p then g p (s p)
      else s p) (hg : ∀ p c, ¬ N p → g p c = c) : Clipped Rect.Mem (fun p =>
        (∃ band ∈ bands, band.Mem p) ∧ N p) (shadeRing bands px) := by
  refine .each fun band hband => ?_
  have hblock (r : Rect) (s : ℕ × ℕ → Color) (p : ℕ × ℕ) :
      range r.y0 r.y1 (fun y => range r.x0 r.x1 fun x => px x y) s p = if r.Mem p ∧ t.Has p
        then g p (s p) else s p := by
    refine block_apply (G := g) (fun y s p => ?_) s p
    rw [row_apply t (g := fun x => g (x, y)) fun x s p =>
      (hpx x y s p).trans (if_ctx_congr Iff.rfl (fun h => by rw [h.1]) fun _ => rfl)]
    exact if_ctx_congr Iff.rfl (fun h => by rw [← h.1]) fun _ => rfl
  have h : Clipped Rect.Mem N fun r => range r.y0 r.y1 fun y => range r.x0 r.x1 fun x =>
      px x y := by
    refine .of_formula (fun p c => if t.Has p then g p c else c) (fun r s p hr _ => ?_)
      (fun r s p hr => ?_)
    · rw [hblock]
      exact if_congr (and_iff_right hr) rfl rfl
    · rw [hblock]
      by_cases hmem : r.Mem p ∧ t.Has p
      · rw [if_pos hmem]
        exact hg p _ fun hN => hr ⟨hmem.1, hN⟩
      · rw [if_neg hmem]
  have hcut :=
    cut_clipped (r := band) (fun clip p => (Rect.mem_intersect : (clip.intersect band).Mem p ↔ _)) h
  exact hcut.mono fun p hp => ⟨⟨band, hband, hp.1⟩, hp.2⟩

section Pictures

variable {src : Canvas} {k : RoundWin}

/-- The pixels of a window that no corner blends. -/
def RoundWin.Solid (k : RoundWin) (p : ℕ × ℕ) : Prop :=
  ¬ (p.2 < satAdd k.wy radius ∨ satAdd k.wy k.wh ≤ p.2 + radius) ∧ satAdd k.wx radius ≤ p.1 ∧
    p.1 + radius < satAdd k.wx k.ww

instance (k : RoundWin) (p : ℕ × ℕ) : Decidable (k.Solid p) := inferInstanceAs (Decidable (_ ∧ _))

def RoundWin.copied (k : RoundWin) (color : Color) (p : ℕ × ℕ) (dst : Color) : Color :=
  if k.Solid p then color else k.inked p.1 p.2 (color &&& 0x00FFFFFF) dst

theorem blitU32At_apply {x y sx sy w : ℕ} (hw : sx + w ≤ src.w) (hy : sy < src.h)
    (s : ℕ × ℕ → Color) (p : ℕ × ℕ) : blitU32At t x y src sx sy w s p =
      if p.2 = y ∧ x ≤ p.1 ∧ p.1 < x + w ∧ t.Has p then src.at' (sx + (p.1 - x)) sy else s p := by
  rw [blitU32At]
  by_cases h : w = 0 ∨ t.w ≤ x ∨ t.h ≤ y
  · rw [if_pos h, if_neg]
    · rfl
    · rintro ⟨rfl, h1, h2, h3, h4⟩
      omega
  have hle := src.row_le hy (x := sx + min w (t.w - x)) (by omega)
  rw [if_neg h, if_neg (by omega), putRow_apply]
  refine if_ctx_congr ?_ (fun _ => ?_) fun _ => rfl
  · simp only [DrawTarget.Has]
    omega
  · rw [Canvas.at', Nat.add_assoc]

theorem blitPx_apply {x y sx sy : ℕ} (hx : sx < src.w) (hy : sy < src.h) (s : ℕ × ℕ → Color)
    (p : ℕ × ℕ) : blitPx t x y src sx sy k s p = if p = (x, y) ∧ t.Has p
      then k.inked x y (src.at' sx sy &&& 0x00FFFFFF) (s p) else s p := by
  have hlt := src.row_le hy (x := sx + 1) hx
  rw [blitPx, if_pos (show sy * src.w + sx < src.pix.size by omega), k.put_eq_touch, touch_apply]
  rfl

theorem blitCols_apply {dx y sx sy w : ℕ} (hw : sx + w ≤ src.w) (hy : sy < src.h)
    (hsx : sx + w < 2 ^ 32) (hdx : dx + w < 2 ^ 32) (col : ℕ) (s : ℕ × ℕ → Color) (p : ℕ × ℕ) :
    blitCols t dx y src sx sy w k col s p =
      if p.2 = y ∧ dx + col ≤ p.1 ∧ p.1 < dx + w ∧ t.Has p then
        k.copied (src.at' (sx + (p.1 - dx)) sy) p (s p)
      else s p := by
  induction hn : w - col using Nat.strong_induction_on generalizing col s with
  | _ n ih =>
    rw [blitCols]
    split
    · rw [if_neg (by omega)]
      rfl
    rename_i hcol
    have hx : satAdd dx col = dx + col := satAdd_eq (by omega)
    have hs : satAdd sx col = sx + col := satAdd_eq (by omega)
    rw [hx, hs]
    dsimp only
    split
    · rename_i hsolid
      obtain ⟨hrow, h0, h1, hmid⟩ := hsolid
      rw [draws, draws, draws, ih _ (by omega) _ _ rfl, blitU32At_apply (by omega) hy]
      by_cases hp : p.2 = y ∧ dx + col ≤ p.1 ∧ p.1 < dx + w ∧ t.Has p
      · obtain ⟨rfl, hl, hr, hhas⟩ := hp
        have hin : p.2 = p.2 ∧ dx + col ≤ p.1 ∧ p.1 < dx + w ∧ t.Has p := ⟨rfl, hl, hr, hhas⟩
        rw [if_pos hin]
        by_cases hleft : p.1 < dx + col + min (satAdd k.wx k.ww - radius - (dx + col)) (w - col)
        · have hsolid : k.Solid p := ⟨hrow, by omega, by omega⟩
          rw [if_neg (by omega), if_pos ⟨rfl, hl, hleft, hhas⟩, RoundWin.copied, if_pos hsolid]
          congr 1
          omega
        · rw [if_pos ⟨rfl, by omega, hr, hhas⟩, if_neg fun h => hleft h.2.2.1]
      · rw [if_neg hp, if_neg, if_neg]
        · rintro ⟨h2, h3, h4, h5⟩
          exact hp ⟨h2, h3, by omega, h5⟩
        · rintro ⟨h2, h3, h4, h5⟩
          exact hp ⟨h2, by omega, h4, h5⟩
    · rename_i hedge
      rw [draws, draws, draws, ih _ (by omega) _ _ rfl, blitPx_apply (by omega) hy]
      by_cases hp : p.2 = y ∧ dx + col ≤ p.1 ∧ p.1 < dx + w ∧ t.Has p
      · obtain ⟨rfl, hl, hr, hhas⟩ := hp
        have hin : p.2 = p.2 ∧ dx + col ≤ p.1 ∧ p.1 < dx + w ∧ t.Has p := ⟨rfl, hl, hr, hhas⟩
        rw [if_pos hin]
        by_cases hcur : p.1 = dx + col
        · have hsolid : ¬ k.Solid p := by
            rintro ⟨h1, h2, h3⟩
            exact hedge ⟨h1, by omega, by omega, by omega⟩
          rw [if_neg (by omega), if_pos ⟨Prod.ext hcur rfl, hhas⟩, RoundWin.copied,
            if_neg hsolid, hcur, Nat.add_sub_cancel_left]
        · rw [if_pos ⟨rfl, by omega, hr, hhas⟩, if_neg fun h => hcur (congrArg Prod.fst h.1)]
      · rw [if_neg hp, if_neg, if_neg]
        · rintro ⟨rfl, h5⟩
          exact hp ⟨rfl, Nat.le_refl _, by dsimp only; omega, h5⟩
        · rintro ⟨h2, h3, h4, h5⟩
          exact hp ⟨h2, by omega, h4, h5⟩

/-- The pixels of a picture at a corner. -/
def Canvas.Covers (src : Canvas) (cx cy : ℕ) (p : ℕ × ℕ) : Prop :=
  p.1 < cx + src.w ∧ p.2 < cy + src.h

instance (src : Canvas) (cx cy : ℕ) (p : ℕ × ℕ) : Decidable (src.Covers cx cy p) :=
  inferInstanceAs (Decidable (_ ∧ _))

theorem blitU32AtRound_apply {dx dy sx sy w h : ℕ} (hw : sx + w ≤ src.w) (hh : sy + h ≤ src.h)
    (hsx : sx + w < 2 ^ 32) (hsy : sy + h < 2 ^ 32) (hdx : dx + w < 2 ^ 32) (hdy : dy + h < 2 ^ 32)
    (s : ℕ × ℕ → Color) (p : ℕ × ℕ) : blitU32AtRound t dx dy src sx sy w h k s p =
      if (⟨dx, dy, dx + w, dy + h⟩ : Rect).Mem p ∧ t.Has p then
        k.copied (src.at' (sx + (p.1 - dx)) (sy + (p.2 - dy))) p (s p)
      else s p := by
  rw [blitU32AtRound]
  by_cases hempty : w = 0 ∨ h = 0 ∨ t.w ≤ dx ∨ t.h ≤ dy
  · rw [if_pos hempty, if_neg]
    · rfl
    · rintro ⟨⟨h1, h2, h3, h4⟩, h5, h6⟩
      dsimp only at h1 h2 h3 h4
      omega
  have hcols {row : ℕ} (hrow : row < min h (t.h - dy)) (s : ℕ × ℕ → Color) (p : ℕ × ℕ) :
      blitCols t dx (satAdd dy row) src sx (satAdd sy row) (min w (t.w - dx)) k 0 s p =
        if p.2 = dy + row ∧ dx ≤ p.1 ∧ p.1 < dx + min w (t.w - dx) ∧ t.Has p then
          k.copied (src.at' (sx + (p.1 - dx)) (sy + row)) p (s p)
        else s p := by
    have hy : satAdd dy row = dy + row := satAdd_eq (by omega)
    have hs : satAdd sy row = sy + row := satAdd_eq (by omega)
    rw [hy, hs]
    exact blitCols_apply (by omega) (by omega) (by omega) (by omega) 0 s p
  rw [if_neg hempty, range_slices (fun p => p.2 - dy) fun p c =>
    if dy ≤ p.2 ∧ dx ≤ p.1 ∧ p.1 < dx + min w (t.w - dx) ∧ t.Has p then
      k.copied (src.at' (sx + (p.1 - dx)) (sy + (p.2 - dy))) p c
    else c]
  · by_cases hp : (⟨dx, dy, dx + w, dy + h⟩ : Rect).Mem p ∧ t.Has p
    · obtain ⟨⟨h1, h2, h3, h4⟩, h5, h6⟩ := id hp
      dsimp only at h1 h2 h3 h4
      rw [if_pos hp, if_pos (by omega), if_pos ⟨h3, h1, by omega, hp.2⟩]
    · rw [if_neg hp]
      split
      · rw [if_neg]
        rintro ⟨h1, h2, h3, h4⟩
        exact hp ⟨⟨h2, by dsimp only; omega, h1, by dsimp only; omega⟩, h4⟩
      · rfl
  · rintro i s p hi rfl
    rw [hcols hi]
    exact if_congr (and_congr_left' (by omega)) rfl rfl
  · intro i s p hi hp
    rw [hcols hi, if_neg]
    rintro ⟨h1, -⟩
    omega

theorem blitVis_apply {cx cy : ℕ} {vis : Rect} (hx : cx ≤ vis.x0) (hy : cy ≤ vis.y0)
    (hx1 : vis.x1 < 2 ^ 32) (hy1 : vis.y1 < 2 ^ 32) (s : ℕ × ℕ → Color) (p : ℕ × ℕ) :
    blitVis t cx cy src k vis s p =
      if vis.Mem p ∧ src.Covers cx cy p ∧ t.Has p then k.copied (src.at' (p.1 - cx) (p.2 - cy)) p
        (s p) else s p := by
  rw [blitVis]
  by_cases hempty : min (vis.x1 - vis.x0) (src.w - (vis.x0 - cx)) = 0 ∨
      min (vis.y1 - vis.y0) (src.h - (vis.y0 - cy)) = 0
  · rw [if_pos hempty, if_neg]
    · rfl
    · rintro ⟨⟨h1, h2, h3, h4⟩, ⟨h5, h6⟩, -⟩
      omega
  rw [if_neg hempty, blitU32AtRound_apply (by omega) (by omega) (by omega) (by omega)
    (by omega) (by omega)]
  refine if_ctx_congr ?_ ?_ fun _ => rfl
  · rw [← and_assoc]
    refine and_congr_left' ?_
    simp only [Rect.Mem, Rect.Contains, Canvas.Covers]
    omega
  · rintro ⟨⟨h1, h2, h3, h4⟩, h5⟩
    rw [show vis.x0 - cx + (p.1 - vis.x0) =
      p.1 - cx by omega, show vis.y0 - cy + (p.2 - vis.y0) = p.2 - cy by omega]

end Pictures

end Formulas

end CoeleoOs.Ui
