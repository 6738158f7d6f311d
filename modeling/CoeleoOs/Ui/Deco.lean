import CoeleoOs.Ui.View

/-!
# Painting a window

A window is painted in four parts: its shadow, the title bar, what it shows and its outline. Each
part is left out where it has no pixel of the clip. The icons and the title are drawn under the
whole clip, so that they may leave a title bar that is narrower than they are.
-/

namespace CoeleoOs.Ui
open CoeleoOs.Lib Pixel Text

abbrev shadowOff : ℕ := 2
abbrev decoBtnPad : ℕ := 4

namespace Frame

variable (f : Frame)

def fh : ℕ := satAdd decoH f.ch

def opaqueRect : Rect := ⟨f.ox, f.oy, satAdd f.ox f.cw, satAdd (satAdd f.oy decoH) f.ch⟩

def shadowRect : Rect :=
  ⟨f.ox - (shadowPx - shadowOff), f.oy - (shadowPx - shadowOff), satAdd (satAdd f.ox f.cw) shadowPx,
    satAdd (satAdd f.oy f.fh) shadowPx⟩

def frameRect : Rect := ⟨f.ox, f.oy, satAdd f.ox f.cw, satAdd f.oy f.fh⟩

def decoRect : Rect := ⟨f.ox, f.oy, satAdd f.ox f.cw, satAdd f.oy decoH⟩

def clientRect : Rect :=
  ⟨f.ox, satAdd f.oy decoH, satAdd f.ox f.cw, satAdd (satAdd f.oy decoH) f.ch⟩

def win : RoundWin := ⟨f.ox, f.oy, f.cw, f.fh⟩

def icon : Icon :=
  match f.kind with
  | .vt => .terminal
  | .files => .folder
  | _ => .app

def bands : List Rect := shadowBands f.opaqueRect f.shadowRect

def button (i : ℕ) : ℕ := satAdd f.ox f.cw - btn * (3 - i)

end Frame

/-- The cut is made between bytes, and panics inside a character. -/
def elideTitlePx (font : Font) (s : List Char) (maxPx : ℕ) : Option (List Char) :=
  if maxPx = 0 then some []
  else if font.textWidth s ≤ maxPx then some s
  else if maxPx ≤ font.textWidth dots then some dots
  else (fromUtf8 ((utf8 s).take (fitting font (maxPx - font.textWidth dots) (utf8 s) 0))).map
    (· ++ dots)

def separator (t : DrawTarget) (x0 x1 y : ℕ) (color : Color) (vis : Rect) : Paint :=
  if vis.y0 ≤ y ∧ y < vis.y1 then
    if max x0 vis.x0 < min x1 vis.x1
      then fillSpan t (max x0 vis.x0) y (min x1 vis.x1 - max x0 vis.x0) color else skip
  else skip

namespace View

variable (v : View)

def title (f : Frame) : List Char :=
  match f.kind with
  | .vt => "Terminal".toList
  | .files => v.filesTitle
  | .settings => "Settings".toList
  | .client _ => "Application".toList

def paintShadowClip (f : Frame) (clip : Rect) : Paint :=
  if f.maximized then skip else shadeRing f.bands (shadePx v.tgt f.opaqueRect) clip

def btnHover (f : Frame) (i : ℕ) : Bool :=
  f.button i ≤ v.mx ∧ v.mx < satAdd (f.button i) btn ∧ satAdd f.oy decoBtnPad ≤ v.my ∧
    v.my < satAdd (satAdd f.oy decoBtnPad) btn

def titleX (f : Frame) : ℕ := satAdd (satAdd f.ox pad) (iconPx + gap / 2)

def titleXmax (f : Frame) : ℕ := satAdd f.ox (f.cw - btn * 3)

def shownTitle (f : Frame) : Option (List Char) :=
  elideTitlePx v.font (v.title f) (titleXmax f - titleX f)

def paintTitle (f : Frame) (focused : Bool) (clip : Rect) : Paint :=
  match v.shownTitle f with
  | some s =>
    text v.font v.tgt (titleX f) (satAdd f.oy ((decoH - v.font.h) / 2)) s
      (if focused then Theme.text else Theme.dim) (titleXmax f) clip
  | none => skip

/-- A repaint of the clip comes to its end: no title that it paints panics. -/
def TitlesElide (clip : Rect) : Prop :=
  ∀ f ∈ v.wm.frames, f.minimized = false → f.shadowRect.Intersects clip →
    f.decoRect.Intersects clip → (v.shownTitle f).isSome = true

def paintButton (f : Frame) (focused : Bool) (i : ℕ) (clip : Rect) : Paint :=
  let color := if v.btnHover f i then (if i = 2 then 0x00FFFFFF else Theme.text)
      else if focused then Theme.text else Theme.dim
  let x := f.button i + (btn - iconPx) / 2
  let y := satAdd f.oy decoBtnPad + (btn - iconPx) / 2
  match i with
  | 0 => icon v.tgt .min x y color clip
  | 1 => if f.maximized then iconRestore v.tgt x y color clip else icon v.tgt .max x y color clip
  | _ => icon v.tgt .close x y color clip

def decoMarks (f : Frame) (focused : Bool) (clip : Rect) : Paint :=
  draws [icon v.tgt f.icon (satAdd f.ox pad) (satAdd f.oy ((decoH - iconPx) / 2))
      (if focused then Theme.accent else Theme.dim) clip,
    v.paintTitle f focused clip,
    separator v.tgt f.ox (satAdd f.ox f.cw) (satAdd f.oy decoH - 1) Theme.border
      (f.decoRect.intersect clip),
    range 0 3 fun i =>
      if v.btnHover f i then
        fillRound v.tgt (f.button i) (satAdd f.oy decoBtnPad) btn btn radiusSm
          (if i = 2 then Theme.danger else Theme.hover) (f.decoRect.intersect clip)
      else skip,
    range 0 3 fun i => v.paintButton f focused i clip]

def decoBody (f : Frame) (focused : Bool) (clip : Rect) : Paint :=
  draws [fillRound v.tgt f.ox f.oy f.cw f.fh radius Theme.surface (f.decoRect.intersect clip),
    v.decoMarks f focused clip]

def paintDecoClip (f : Frame) (focused : Bool) (clip : Rect) : Paint :=
  if (f.decoRect.intersect clip).IsEmpty then skip else v.decoBody f focused clip

def contents (f : Frame) (ops : List SinkOp) (vis : Rect) : Paint :=
  each (.fill 0 0 f.cw f.ch Theme.bg :: ops) fun op =>
    FilesSink.draw v.font v.tgt ⟨f.ox, satAdd f.oy decoH, f.cw, f.ch, f.win⟩ op vis

def picture (f : Frame) (c : Option Canvas) (vis : Rect) : Paint :=
  draws [f.win.fill v.tgt Theme.bg vis,
    match c with
    | some c => blitVis v.tgt f.ox (satAdd f.oy decoH) c f.win vis
    | none => skip]

def needClientSnap (clip : Rect) : Prop :=
  ∃ f ∈ v.wm.frames, f.minimized = false ∧ isClient f.kind = true ∧ f.clientRect.Intersects clip

instance (clip : Rect) : Decidable (v.needClientSnap clip) :=
  inferInstanceAs (Decidable (∃ f ∈ v.wm.frames, _))

def paintClientClip (vt : Option Canvas) (clients : List (ℕ × Canvas)) (f : Frame) (clip : Rect) :
    Paint :=
  let vis := f.clientRect.intersect clip
  if vis.IsEmpty then skip
  else
    match f.kind with
    | .vt => v.picture f vt vis
    | .files => v.contents f (v.files f.cw f.ch) vis
    | .settings => v.contents f (v.settings f.cw f.ch) vis
    | .client id => v.picture f ((clients.find? fun c => c.1 = id).map Prod.snd) vis

def paintFrameOutline (f : Frame) (focused : Bool) (clip : Rect) : Paint :=
  if f.maximized then skip
  else
    let vis := f.frameRect.intersect clip
    if vis.IsEmpty then skip
    else strokeRound v.tgt f.ox f.oy f.cw f.fh radius (if focused then Theme.accent
      else Theme.border) vis

def paintFrame (vt : Option Canvas) (clients : List (ℕ × Canvas)) (f : Frame) (focused : Bool)
    (clip : Rect) : Paint :=
  if f.minimized then skip
  else if ¬ f.shadowRect.Intersects clip then skip
  else
    draws [v.paintShadowClip f clip, v.paintDecoClip f focused clip,
      v.paintClientClip vt clients f clip, v.paintFrameOutline f focused clip]

def paintFrames (vt : Option Canvas) (clip : Rect) : Paint :=
  let clients := if v.needClientSnap clip then v.clients else []
  each v.wm.frames.zipIdx fun fi => v.paintFrame vt clients fi.1 (v.wm.visibleTop = some fi.2) clip

end View

section Clips

variable {v : View} {vt : Option Canvas} {f : Frame}

/-- The squares of the icons in the title bar. -/
def Frame.IconAt (f : Frame) (p : ℕ × ℕ) : Prop :=
  IconBox (satAdd f.ox pad) (satAdd f.oy ((decoH - iconPx) / 2)) p ∨
    ∃ i < 3, IconBox (f.button i + (btn - iconPx) / 2) (satAdd f.oy decoBtnPad + (btn - iconPx) / 2)
      p

/-- Where a window may change pixels beyond the rectangle that its repaint is decided by. -/
def Frame.Reaches (f : Frame) (p : ℕ × ℕ) : Prop := f.IconAt p ∨ ∃ band ∈ f.bands, band.Mem p

/-- A clip with a pixel of a region meets the rectangle that decides whether the region is painted,
unless that rectangle lies beyond the work area. -/
def Rect.MetBy (r : Rect) (R : ℕ × ℕ → Prop) (work clip : Rect) : Prop :=
  r.Intersects work → ∀ p, clip.Mem p → R p → r.Intersects clip

def Rect.Near (op : Rect) (p : ℕ × ℕ) : Prop := ¬ (op.sdf p.1 p.2 = 0 ∨ shadowPx < op.sdf p.1 p.2)

instance (op : Rect) (p : ℕ × ℕ) : Decidable (op.Near p) := inferInstanceAs (Decidable (¬ _))

theorem near_apply (t : DrawTarget) (op : Rect) (g : ℕ → Color → Color) (x y : ℕ)
    (s : ℕ × ℕ → Color) (p : ℕ × ℕ) :
    (if op.sdf x y = 0 ∨ shadowPx < op.sdf x y then skip else touch t x y (g (op.sdf x y))) s p =
      if p = (x, y) ∧ t.Has p then if op.Near p then g (op.sdf p.1 p.2) (s p) else s p
        else s p := by
  by_cases hd : op.sdf x y = 0 ∨ shadowPx < op.sdf x y
  · rw [if_pos hd]
    by_cases hp : p = (x, y) ∧ t.Has p
    · obtain ⟨rfl, hhas⟩ := hp
      rw [if_pos ⟨rfl, hhas⟩, if_neg (show ¬ op.Near (x, y) from not_not.mpr hd)]
      rfl
    · rw [if_neg hp]
      rfl
  · rw [if_neg hd, touch_apply]
    refine if_ctx_congr Iff.rfl ?_ fun _ => rfl
    rintro ⟨rfl, -⟩
    rw [if_pos (show op.Near (x, y) from hd)]

def Rect.shaded (op : Rect) (p : ℕ × ℕ) (dst : Color) : Color :=
  if op.Near p then blendFb dst Theme.shadow (shadowA (op.sdf p.1 p.2 - 1)) else dst

theorem shadePx_apply (t : DrawTarget) (op : Rect) (x y : ℕ) (s : ℕ × ℕ → Color) (p : ℕ × ℕ) :
    shadePx t op x y s p = if p = (x, y) ∧ t.Has p then op.shaded p (s p) else s p := by
  rw [shadePx, Rect.shaded]
  exact near_apply t op (fun d dst => blendFb dst Theme.shadow (shadowA (d - 1))) x y s p

theorem shadow_clipped (t : DrawTarget) (op : Rect) (bands : List Rect) :
    Clipped Rect.Mem (fun p => (∃ band ∈ bands, band.Mem p) ∧ op.Near p)
      (shadeRing bands (shadePx t op)) :=
  shadeRing_clipped (g := op.shaded) (shadePx_apply t op) fun _ _ hp => if_neg hp

theorem paintShadowClip_clipped :
    Clipped Rect.Mem (fun p => (∃ band ∈ f.bands, band.Mem p) ∧ f.opaqueRect.Near p)
      (v.paintShadowClip f) :=
  .ite .skip (shadow_clipped ..)

theorem icon_box (f : Frame) (t : DrawTarget) (x y : ℕ) (c : Color) :
    Clipped Rect.Mem (IconBox x y) (icon t f.icon x y c) := by
  rw [Frame.icon]
  split
  · exact iconTerm_cell x y c
  · exact iconFolder_cell x y c
  · exact iconApp_cell x y c

theorem paintButton_clipped (hf : f.Placed) (focused : Bool) (i : ℕ) :
    Clipped Rect.Mem (IconBox (f.button i + (btn - iconPx) / 2)
      (satAdd f.oy decoBtnPad + (btn - iconPx) / 2)) (v.paintButton f focused i) := by
  obtain ⟨hx, hy, hw, -⟩ := hf
  have hbx : f.button i + (btn - iconPx) / 2 + 16 < 2 ^ 31 := by
    simp only [Frame.button, satAdd, btn, iconPx]
    omega
  have hby : satAdd f.oy decoBtnPad + (btn - iconPx) / 2 + 16 < 2 ^ 31 := by
    simp only [satAdd, decoBtnPad, btn, iconPx]
    omega
  unfold View.paintButton
  cases i with
  | zero => exact iconMin_cell ..
  | succ i =>
    cases i with
    | zero => exact .ite (iconMax_cell ..) (iconMax_cell ..)
    | succ i => exact iconClose_cell hbx hby _

theorem paintTitle_clipped (hf : f.Placed) (focused : Bool) :
    Clipped Rect.Mem f.decoRect.Mem (v.paintTitle f focused) := by
  obtain ⟨hx, hy, hw, -⟩ := hf
  unfold View.paintTitle View.titleX View.titleXmax
  split
  · refine .mono ?_ (text_clipped (satAdd_lt ..) (satAdd_lt ..) ..)
    rintro p ⟨hright, hleft, htop, hbottom⟩
    have hh : v.font.h ≤ 32 := v.font.h_le
    have hright : p.1 < satAdd f.ox (f.cw - 72) := hright
    have hleft : satAdd (satAdd f.ox 8) 20 ≤ p.1 := hleft
    have htop : satAdd f.oy ((32 - v.font.h) / 2) ≤ p.2 := htop
    have hbottom : p.2 < satAdd f.oy ((32 - v.font.h) / 2) + v.font.h := hbottom
    rw [satAdd_eq (by omega)] at hright htop hbottom
    rw [satAdd_eq (a := f.ox) (by omega), satAdd_eq (by omega)] at hleft
    have hmem : f.ox ≤ p.1 ∧ p.1 < satAdd f.ox f.cw ∧ f.oy ≤ p.2 ∧ p.2 < satAdd f.oy 32 := by
      rw [satAdd_eq (by omega), satAdd_eq (by omega)]
      omega
    exact hmem
  · exact .skip

namespace Frame.Placed

theorem mem_shadow (hf : f.Placed) (p : ℕ × ℕ) :
    f.shadowRect.Mem p ↔ f.ox ≤ p.1 + 6 ∧ p.1 < f.ox + f.cw + 8 ∧ f.oy ≤ p.2 + 6 ∧
    p.2 < f.oy + f.ch + 40 := by
  obtain ⟨hx, hy, hw, hh⟩ := hf
  have hx1 : satAdd (satAdd f.ox f.cw) 8 = f.ox + f.cw + 8 := by
    rw [satAdd_eq (a := f.ox) (by omega), satAdd_eq (by omega)]
  have hy1 : satAdd (satAdd f.oy (satAdd 32 f.ch)) 8 = f.oy + f.ch + 40 := by
    rw [satAdd_eq (a := 32) (by omega), satAdd_eq (a := f.oy) (by omega), satAdd_eq (by omega)]
    omega
  show f.ox - 6 ≤ p.1 ∧ p.1 < satAdd (satAdd f.ox f.cw) 8 ∧ f.oy - 6 ≤ p.2 ∧
      p.2 < satAdd (satAdd f.oy (satAdd 32 f.ch)) 8 ↔ _
  rw [hx1, hy1]
  omega

theorem mem_deco (hf : f.Placed) (p : ℕ × ℕ) :
    f.decoRect.Mem p ↔ f.ox ≤ p.1 ∧ p.1 < f.ox + f.cw ∧ f.oy ≤ p.2 ∧ p.2 < f.oy + 32 := by
  obtain ⟨hx, hy, hw, hh⟩ := hf
  show f.ox ≤ p.1 ∧ p.1 < satAdd f.ox f.cw ∧ f.oy ≤ p.2 ∧ p.2 < satAdd f.oy 32 ↔ _
  rw [satAdd_eq (by omega), satAdd_eq (by omega)]

theorem mem_client (hf : f.Placed) (p : ℕ × ℕ) :
    f.clientRect.Mem p ↔ f.ox ≤ p.1 ∧ p.1 < f.ox + f.cw ∧ f.oy + 32 ≤ p.2 ∧
    p.2 < f.oy + f.ch + 32 := by
  obtain ⟨hx, hy, hw, hh⟩ := hf
  show f.ox ≤ p.1 ∧ p.1 < satAdd f.ox f.cw ∧ satAdd f.oy 32 ≤ p.2 ∧
      p.2 < satAdd (satAdd f.oy 32) f.ch ↔ _
  rw [satAdd_eq (by omega), satAdd_eq (a := f.oy) (by omega), satAdd_eq (by omega)]
  omega

theorem mem_frame (hf : f.Placed) (p : ℕ × ℕ) :
    f.frameRect.Mem p ↔ f.ox ≤ p.1 ∧ p.1 < f.ox + f.cw ∧ f.oy ≤ p.2 ∧ p.2 < f.oy + f.ch + 32 := by
  obtain ⟨hx, hy, hw, hh⟩ := hf
  show f.ox ≤ p.1 ∧ p.1 < satAdd f.ox f.cw ∧ f.oy ≤ p.2 ∧ p.2 < satAdd f.oy (satAdd 32 f.ch) ↔ _
  rw [satAdd_eq (a := f.ox) (by omega), satAdd_eq (a := 32) (by omega), satAdd_eq (by omega)]
  omega

end Frame.Placed

theorem separator_clipped (t : DrawTarget) (x0 x1 y : ℕ) (color : Color) :
    Clipped Rect.Mem All (separator t x0 x1 y color) := by
  have hspan (clip : Rect) (s : ℕ × ℕ → Color) (p : ℕ × ℕ) : separator t x0 x1 y color clip s p =
      if clip.Mem p ∧ p.2 = y ∧ x0 ≤ p.1 ∧ p.1 < x1 ∧ t.Has p then color else s p := by
    by_cases hy : clip.y0 ≤ y ∧ y < clip.y1
    · rw [separator, if_pos hy]
      by_cases hx : max x0 clip.x0 < min x1 clip.x1
      · rw [if_pos hx, fillSpan_apply]
        refine if_congr ⟨?_, ?_⟩ rfl rfl
        · rintro ⟨rfl, h1, h2, h3⟩
          exact ⟨⟨by omega, by omega, hy⟩, rfl, by omega, by omega, h3⟩
        · rintro ⟨⟨h1, h2, -⟩, rfl, h3, h4, h5⟩
          exact ⟨rfl, by omega, by omega, h5⟩
      · rw [if_neg hx, if_neg]
        · rfl
        · rintro ⟨⟨h1, h2, -⟩, rfl, h3, h4, h5⟩
          omega
    · rw [separator, if_neg hy, if_neg]
      · rfl
      · rintro ⟨h1, rfl, -⟩
        exact hy h1.2.2
  refine .of_formula (fun p c => if p.2 = y ∧ x0 ≤ p.1 ∧ p.1 < x1 ∧ t.Has p then color else c) ?_ ?_
  · intro c s p hc _
    rw [hspan]
    exact if_congr (and_iff_right hc) rfl rfl
  · intro c s p hp
    rw [hspan, if_neg fun h => hp ⟨h.1, trivial⟩]

theorem part_clipped (r : Rect) {R : ℕ × ℕ → Prop} {P : Rect → Paint} (h : Clipped Rect.Mem R P) :
    Clipped Rect.Mem r.Mem fun clip => P (r.intersect clip) := by
  have hvia : Clipped Rect.Mem (fun p => r.Mem p ∧ R p) fun clip => P (r.intersect clip) :=
    .via (φ := fun clip => r.intersect clip) (mem_cut r) h
  exact hvia.mono fun _ hp => hp.1

theorem decoPart_clipped {P : Rect → Paint} (h : Clipped Rect.Mem All P) :
    Clipped Rect.Mem (fun p => f.decoRect.Mem p ∨ f.IconAt p) fun clip =>
      P (f.decoRect.intersect clip) :=
  (part_clipped f.decoRect h).mono fun _ => .inl

theorem decoMarks_clipped (hf : f.Placed) (focused : Bool) :
    Clipped Rect.Mem (fun p => f.decoRect.Mem p ∨ f.IconAt p) (v.decoMarks f focused) := by
  refine .cons ?_
    (.cons ?_ (.cons (decoPart_clipped (separator_clipped ..)) (.cons ?_ (.cons ?_ .nil))))
  · exact (icon_box f _ _ _ _).mono fun p hp => .inr (.inl hp)
  · exact (paintTitle_clipped hf focused).mono fun _ => .inl
  · exact .range fun i _ _ => .ite (decoPart_clipped (fillRound_all ..)) .skip
  · exact .range fun i _ hi => (paintButton_clipped hf focused i).mono fun p hp =>
      .inr (.inr ⟨i, hi, hp⟩)

theorem decoBody_clipped (hf : f.Placed) (focused : Bool) :
    Clipped Rect.Mem (fun p => f.decoRect.Mem p ∨ f.IconAt p) (v.decoBody f focused) :=
  .cons (decoPart_clipped (fillRound_all ..)) (.cons (decoMarks_clipped hf focused) .nil)

theorem paintDecoClip_keeps (hf : f.Placed) (focused : Bool) :
    Keeps Rect.Mem (fun p => f.decoRect.Mem p ∨ f.IconAt p) (v.paintDecoClip f focused) :=
  .ite .nil (decoBody_clipped hf focused).keeps

abbrev Rect.Among (good : Rect → Prop) (clip : Rect) (p : ℕ × ℕ) : Prop := clip.Mem p ∧ good clip

variable {good : Rect → Prop} {work : Rect}

theorem tested_reads {r : Rect} {R : ℕ × ℕ → Prop} {P : Rect → Paint} {g : Rect → Prop}
    [∀ clip, Decidable (g clip)] (hg : ∀ clip, g clip ↔ ¬ r.Intersects clip)
    (hin : ∀ clip, good clip → ∀ p, clip.Mem p → work.Mem p)
    (hmet : ∀ clip, good clip → r.MetBy R work clip) (hkeep : ∀ clip s p, ¬ R p → P clip s p = s p)
    (h : Reads (Rect.Among good) P) : Reads (Rect.Among good) fun clip => if g clip then skip
      else P clip := by
  by_cases hwork : r.Intersects work
  · refine .guarded (R := R) ?_ hkeep h
    rintro clip p ⟨hc, hgood⟩ hR hgc
    exact (hg clip).mp hgc (hmet clip hgood hwork p hc hR)
  · have hskip (clip : Rect) (hgood : good clip) : g clip := by
      rw [hg, Rect.intersects_iff]
      rintro ⟨x, y, hr, hc⟩
      exact hwork (Rect.intersects_iff.mpr ⟨x, y, hr, hin clip hgood (x, y) hc⟩)
    intro c c' s s' p hc hc' hs
    dsimp only
    rw [if_pos (hskip c hc.2), if_pos (hskip c' hc'.2)]
    exact hs

theorem paintDecoClip_reads (hf : f.Placed) (hin : ∀ clip, good clip → ∀ p, clip.Mem p → work.Mem p)
    (hmet : ∀ clip, good clip → f.decoRect.MetBy f.IconAt work clip) (focused : Bool) :
    Reads (Rect.Among good) (v.paintDecoClip f focused) := by
  have hbody := decoBody_clipped (v := v) hf focused
  refine tested_reads (fun _ => not_not.symm) hin (fun clip hgood hwork p hc hR => ?_)
    hbody.keeps.outside (hbody.reads.sub fun _ _ h => h.1)
  exact hR.elim (fun hdeco => Rect.intersects_iff.mpr ⟨_, _, hdeco, hc⟩)
    (hmet clip hgood hwork p hc)

theorem contents_clipped (ops : List SinkOp) : Clipped Rect.Mem All (v.contents f ops) :=
  .each fun op _ => FilesSink.draw_clipped op

theorem blitClient_apply (c : Canvas) (clip : Rect) (s : ℕ × ℕ → Color) (p : ℕ × ℕ) :
    blitVis v.tgt f.ox (satAdd f.oy decoH) c f.win (f.clientRect.intersect clip) s p =
      if (f.clientRect.intersect clip).Mem p ∧ c.Covers f.ox (satAdd f.oy decoH) p ∧
      v.tgt.Has p then
        f.win.copied (c.at' (p.1 - f.ox) (p.2 - satAdd f.oy decoH)) p (s p)
      else s p :=
  blitVis_apply (le_max_left ..) (le_max_left ..) ((min_le_left ..).trans_lt (satAdd_lt ..))
    ((min_le_left ..).trans_lt (satAdd_lt ..)) s p

theorem blitClient_clipped (c : Canvas) : Clipped Rect.Mem f.clientRect.Mem fun clip =>
    blitVis v.tgt f.ox (satAdd f.oy decoH) c f.win (f.clientRect.intersect clip) := by
  refine .of_formula (fun p d => if c.Covers f.ox (satAdd f.oy decoH) p ∧ v.tgt.Has p then
    f.win.copied (c.at' (p.1 - f.ox) (p.2 - satAdd f.oy decoH)) p d else d) (fun clip s p hc hr =>
      ?_) fun clip s p hp => ?_
  · rw [blitClient_apply]
    exact if_congr (and_iff_right (Rect.mem_intersect.mpr ⟨hr, hc⟩)) rfl rfl
  · rw [blitClient_apply, if_neg]
    exact fun h => hp ((mem_cut ..).mp h.1)

theorem picture_clipped (c : Option Canvas) :
    Clipped Rect.Mem f.clientRect.Mem fun clip => v.picture f c (f.clientRect.intersect clip) := by
  refine .cons (part_clipped f.clientRect (RoundWin.fill_clipped ..)) (.cons ?_ .nil)
  cases c with
  | none => exact .skip
  | some c => exact blitClient_clipped c

theorem paintClientClip_clipped (clients : List (ℕ × Canvas)) :
    Clipped Rect.Mem f.clientRect.Mem (v.paintClientClip vt clients f) := by
  refine .guarded (fun clip p hc hr => Rect.not_isEmpty_of_mem (Rect.mem_intersect.mpr ⟨hr, hc⟩)) ?_
  split
  · exact picture_clipped vt
  · exact part_clipped f.clientRect (contents_clipped _)
  · exact part_clipped f.clientRect (contents_clipped _)
  · exact picture_clipped _

theorem paintFrameOutline_clipped (focused : Bool) :
    Clipped Rect.Mem f.frameRect.Mem (v.paintFrameOutline f focused) :=
  .ite .skip ((cut_clipped (mem_cut f.frameRect) (strokeRound_clipped ..)).mono fun _ h => h.1)

theorem paintClientClip_snap (hf : f ∈ v.wm.frames) (hvis : f.minimized = false) (clip : Rect) :
    v.paintClientClip vt (if v.needClientSnap clip then v.clients else []) f clip =
      v.paintClientClip vt v.clients f clip := by
  by_cases hneed : v.needClientSnap clip
  · rw [if_pos hneed]
  rw [View.paintClientClip, View.paintClientClip]
  by_cases hempty : (f.clientRect.intersect clip).IsEmpty
  · rw [if_pos hempty, if_pos hempty]
  rw [if_neg hempty, if_neg hempty]
  split
  · rfl
  · rfl
  · rfl
  · rename_i id hk
    exact absurd ⟨f, hf, hvis, by rw [hk]; rfl, hempty⟩ hneed

def View.frameBody (v : View) (vt : Option Canvas) (f : Frame) (focused : Bool) (clip : Rect) :
    Paint :=
  draws [v.paintShadowClip f clip, v.paintDecoClip f focused clip,
    v.paintClientClip vt v.clients f clip, v.paintFrameOutline f focused clip]

theorem frameBody_keeps (hf : f.Placed) (focused : Bool) :
    Keeps Rect.Mem (fun p => f.shadowRect.Mem p ∨ f.Reaches p) (v.frameBody vt f focused) := by
  refine .cons ?_ (.cons ?_ (.cons ?_ (.cons ?_ .nil)))
  · exact paintShadowClip_clipped.keeps.mono fun p hp => .inr (.inr hp.1)
  · refine (paintDecoClip_keeps hf focused).mono fun p hp => hp.imp (fun h => ?_) .inl
    rw [hf.mem_deco] at h
    rw [hf.mem_shadow]
    omega
  · refine (paintClientClip_clipped _).keeps.mono fun p h => .inl ?_
    rw [hf.mem_client] at h
    rw [hf.mem_shadow]
    omega
  · refine (paintFrameOutline_clipped focused).keeps.mono fun p h => .inl ?_
    rw [hf.mem_frame] at h
    rw [hf.mem_shadow]
    omega

/-- A clip under which a window is painted as under the whole work area. -/
structure Frame.Shown (f : Frame) (work clip : Rect) : Prop where
  deco : f.decoRect.MetBy f.IconAt work clip
  shadow : f.shadowRect.MetBy f.Reaches work clip

theorem frameBody_reads (hf : f.Placed) (hin : ∀ clip, good clip → ∀ p, clip.Mem p → work.Mem p)
    (hshown : ∀ clip, good clip → f.Shown work clip) (focused : Bool) :
    Reads (Rect.Among good) (v.frameBody vt f focused) :=
  .cons (paintShadowClip_clipped.reads.sub fun _ _ h => h.1)
    (.cons (paintDecoClip_reads hf hin (fun clip hgood => (hshown clip hgood).deco) focused)
      (.cons ((paintClientClip_clipped _).reads.sub fun _ _ h => h.1)
        (.cons ((paintFrameOutline_clipped focused).reads.sub fun _ _ h => h.1) .nil)))

theorem paintFrame_eq (hf : f ∈ v.wm.frames) (focused : Bool) (clip : Rect) :
    v.paintFrame vt (if v.needClientSnap clip then v.clients else []) f focused clip =
      if f.minimized then skip else if ¬ f.shadowRect.Intersects clip then skip
        else v.frameBody vt f focused clip := by
  rw [View.paintFrame]
  by_cases hmin : f.minimized = true
  · rw [if_pos hmin, if_pos hmin]
  · rw [if_neg hmin, if_neg hmin, paintClientClip_snap hf (eq_false_of_ne_true hmin)]
    rfl

theorem paintFrames_keeps : Keeps Rect.Mem All (v.paintFrames vt) := by
  refine .each fun fi hfi => ?_
  have hf : fi.1 ∈ v.wm.frames := List.fst_mem_of_mem_zipIdx hfi
  simp only [paintFrame_eq hf]
  exact .ite .nil (.ite .nil ((frameBody_keeps (v.placed _ hf) _).mono fun _ _ => trivial))

theorem paintFrames_reads (hin : ∀ clip, good clip → ∀ p, clip.Mem p → work.Mem p)
    (hshown : ∀ clip, good clip → ∀ f ∈ v.wm.frames, f.minimized = false → f.Shown work clip) :
    Reads (Rect.Among good) (v.paintFrames vt) := by
  refine .each fun fi hfi => ?_
  have hf : fi.1 ∈ v.wm.frames := List.fst_mem_of_mem_zipIdx hfi
  have hplaced := v.placed _ hf
  simp only [paintFrame_eq hf]
  by_cases hmin : fi.1.minimized = true
  · simp only [if_pos hmin]
    exact .nil
  simp only [if_neg hmin]
  have hfi : ∀ clip, good clip → fi.1.Shown work clip := fun clip hgood =>
    hshown clip hgood fi.1 hf (eq_false_of_ne_true hmin)
  refine tested_reads (fun _ => Iff.rfl) hin (fun clip hgood hwork p hc hR => ?_)
    (frameBody_keeps hplaced _).outside (frameBody_reads hplaced hin hfi _)
  exact hR.elim (fun hsh => Rect.intersects_iff.mpr ⟨_, _, hsh, hc⟩)
    ((hfi clip hgood).shadow hwork p hc)

end Clips

end CoeleoOs.Ui
