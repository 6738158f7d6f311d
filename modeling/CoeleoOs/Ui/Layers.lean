import CoeleoOs.Ui.Present

/-!
# Windows over one another

What a window leaves of the pixels below it. It fills most of its own pixels in full, so that
nothing below is seen there, and beside it only its shadow changes a pixel. At its rounded corners
the windows below show through.
-/

namespace CoeleoOs.Ui
open CoeleoOs.Lib Pixel

namespace Frame

variable (f : Frame)

def corner : ℕ := min (min radius (f.cw / 2)) (f.fh / 2)

def outline (p : ℕ × ℕ) : UInt8 :=
  if f.maximized = true ∨ f.cw < 2 then 0 else strokeCov f.ox f.oy f.cw f.fh f.corner p

/-- The pixels of a window where nothing below it is seen. -/
def Masks (p : ℕ × ℕ) : Prop :=
  f.decoRect.Mem p ∧ FillsAt f.ox f.oy f.cw f.fh f.corner p ∨
    f.clientRect.Mem p ∧ (f.win.Inner p.2 ∨ f.win.cov p.1 p.2 = 255) ∨ f.frameRect.Mem p ∧
    f.outline p = 255

/-- The pixels that the shadow of a window changes. -/
def Shades (p : ℕ × ℕ) : Prop :=
  f.maximized = false ∧ (∃ band ∈ f.bands, band.Mem p) ∧ f.opaqueRect.Near p

/-- The pixels that a window leaves to its shadow. -/
structure Clear (p : ℕ × ℕ) : Prop where
  body : ¬ f.opaqueRect.Mem p
  icons : ¬ f.IconAt p
  shadow : f.Shades p → f.shadowRect.Mem p

end Frame

def View.window (v : View) (vt : Option Canvas) (clip : Rect) (fi : Frame × ℕ) : Paint :=
  if fi.1.minimized then skip
  else if ¬ fi.1.shadowRect.Intersects clip then skip
  else v.frameBody vt fi.1 (v.wm.visibleTop = some fi.2) clip

section Layers

variable {v : View} {vt vt' : Option Canvas} {f : Frame} {fi : Frame × ℕ}
    {clip clip' : Rect} {p : ℕ × ℕ}

theorem work_has (hp : v.workRect.Mem p) : v.tgt.Has p := by
  have hwork := (hWork_bounds v).1
  obtain ⟨-, hx, -, hy⟩ := hp
  have hy : p.2 < v.hWork := hy
  exact ⟨hx, show p.2 < v.scr.h by omega⟩

theorem Frame.Placed.mem_opaque (hf : f.Placed) (p : ℕ × ℕ) :
    f.opaqueRect.Mem p ↔ f.frameRect.Mem p := by
  rw [hf.mem_frame]
  obtain ⟨hx, hy, hw, hh⟩ := hf
  show f.ox ≤ p.1 ∧ p.1 < satAdd f.ox f.cw ∧ f.oy ≤ p.2 ∧ p.2 < satAdd (satAdd f.oy 32) f.ch ↔ _
  rw [satAdd_eq (a := f.ox) (by omega), satAdd_eq (a := f.oy) (by omega), satAdd_eq (by omega)]
  omega

theorem paintShadowClip_keeps (hp : ¬ f.Shades p) (s : ℕ × ℕ → Color) :
    v.paintShadowClip f clip s p = s p := by
  rw [View.paintShadowClip]
  split
  · rfl
  · rename_i hmax
    exact (shadow_clipped ..).keeps.outside _ s p fun h => hp ⟨eq_false_of_ne_true hmax, h⟩

section Hiding

theorem decoBody_hides (hf : f.Placed) (hhas : v.tgt.Has p) (hc : clip.Mem p)
    (hp : f.decoRect.Mem p) (hfill : FillsAt f.ox f.oy f.cw f.fh f.corner p) (focused : Bool) :
    Hides p (v.decoBody f focused clip) := by
  have hwithin : Within f.ox f.oy f.cw f.fh p := by
    have hframe : f.frameRect.Mem p := by
      rw [hf.mem_deco] at hp
      rw [hf.mem_frame]
      omega
    exact hframe
  refine .first (fun s s' => ?_) (Pointwise.draws ?_)
  · rw [fillRound_apply, fillRound_apply, if_pos ⟨⟨Rect.mem_intersect.mpr ⟨hp, hc⟩, hwithin⟩, hhas⟩,
      if_pos ⟨⟨Rect.mem_intersect.mpr ⟨hp, hc⟩, hwithin⟩, hhas⟩]
    exact (fillInked_full hfill ..).trans (fillInked_full hfill ..).symm
  · intro d hd
    rw [List.mem_singleton.mp hd]
    exact (decoMarks_clipped hf focused).reads.pointwise hc

theorem paintDecoClip_pointwise (hf : f.Placed) (hc : clip.Mem p) (focused : Bool) :
    Pointwise p (v.paintDecoClip f focused clip) :=
  .ite (fun _ _ h => h) ((decoBody_clipped hf focused).reads.pointwise hc)

theorem winFill_hides (hhas : v.tgt.Has p) {r : Rect} (hr : r.Mem p)
    (hp : f.win.Inner p.2 ∨ f.win.cov p.1 p.2 = 255) (color : Color) :
    Hides p (f.win.fill v.tgt color r) := by
  have hfill (c : Color) : f.win.filled color p c = color := by
    rw [RoundWin.filled]
    split
    · rfl
    · rename_i hin
      rw [RoundWin.inked, hp.resolve_left hin]
      rfl
  intro s s'
  rw [RoundWin.fill_apply, RoundWin.fill_apply, if_pos ⟨hr, hhas⟩, if_pos ⟨hr, hhas⟩, hfill, hfill]

theorem fill_whole (hf : f.Placed) (hp : f.clientRect.Mem p) (color : Color) {t : DrawTarget}
    {vis : Rect} (hvis : ¬ (f.clientRect.intersect vis).IsEmpty) :
    FilesSink.fill t ⟨f.ox, satAdd f.oy decoH, f.cw, f.ch, f.win⟩ 0 0 f.cw f.ch color vis =
      f.win.fill t color (f.clientRect.intersect vis) := by
  have hclient := (hf.mem_client p).mp hp
  obtain ⟨hx, hy, hw, hh⟩ := hf
  have hwide : min (satAdd 0 f.cw) f.cw = f.cw := by
    rw [satAdd_eq (by omega), Nat.zero_add, Nat.min_self]
  have hhigh : min (satAdd 0 f.ch) f.ch = f.ch := by
    rw [satAdd_eq (by omega), Nat.zero_add, Nat.min_self]
  have hrect :
      (⟨satAdd f.ox (min 0 f.cw), satAdd (satAdd f.oy decoH) (min 0 f.ch), satAdd f.ox f.cw,
      satAdd (satAdd f.oy decoH) f.ch⟩ : Rect) = f.clientRect := by
    rw [Nat.zero_min, Nat.zero_min, satAdd_eq (a := f.ox) (b := 0) (by omega),
      satAdd_eq (a := satAdd f.oy decoH) (b := 0) (satAdd_lt ..)]
    rfl
  rw [FilesSink.fill]
  dsimp only
  rw [hwide, hhigh, hrect, if_neg (by omega), if_neg hvis, FilesSink.fillVis_eq fun p hp =>
    (Rect.mem_intersect.mp hp).2]

theorem contents_hides (hf : f.Placed) (hhas : v.tgt.Has p) (hc : clip.Mem p)
    (hp : f.clientRect.Mem p) (hfill : f.win.Inner p.2 ∨ f.win.cov p.1 p.2 = 255)
    (ops : List SinkOp) : Hides p (v.contents f ops (f.clientRect.intersect clip)) := by
  have hvis : (f.clientRect.intersect (f.clientRect.intersect clip)).Mem p := by
    rw [Rect.mem_intersect, Rect.mem_intersect]
    exact ⟨hp, hp, hc⟩
  rw [View.contents, each, List.map_cons]
  refine .first ?_ (Pointwise.draws ?_)
  · have hhide := winFill_hides hhas hvis hfill Theme.bg
    rw [← fill_whole hf hp Theme.bg (Rect.not_isEmpty_of_mem hvis)] at hhide
    exact hhide
  · intro d hd
    obtain ⟨op, -, rfl⟩ := List.mem_map.mp hd
    exact (FilesSink.draw_clipped op).reads.pointwise (Rect.mem_intersect.mpr ⟨hp, hc⟩)

theorem picture_hides (hhas : v.tgt.Has p) (hc : clip.Mem p) (hp : f.clientRect.Mem p)
    (hfill : f.win.Inner p.2 ∨ f.win.cov p.1 p.2 = 255) (c : Option Canvas) :
    Hides p (v.picture f c (f.clientRect.intersect clip)) := by
  refine .first (winFill_hides hhas (Rect.mem_intersect.mpr ⟨hp, hc⟩) hfill _)
    (Pointwise.draws fun d hd => ?_)
  rw [List.mem_singleton.mp hd]
  cases c with
  | none => exact fun _ _ h => h
  | some c => exact (blitClient_clipped c).reads.pointwise hc

theorem paintClientClip_hides (hf : f.Placed) (hhas : v.tgt.Has p) (hc : clip.Mem p)
    (hp : f.clientRect.Mem p) (hfill : f.win.Inner p.2 ∨ f.win.cov p.1 p.2 = 255)
    (clients : List (ℕ × Canvas)) : Hides p (v.paintClientClip vt clients f clip) := by
  have hvis : ¬ (f.clientRect.intersect clip).IsEmpty :=
    Rect.not_isEmpty_of_mem (Rect.mem_intersect.mpr ⟨hp, hc⟩)
  unfold View.paintClientClip
  dsimp only
  rw [if_neg hvis]
  split
  · exact picture_hides hhas hc hp hfill vt
  · exact contents_hides hf hhas hc hp hfill _
  · exact contents_hides hf hhas hc hp hfill _
  · exact picture_hides hhas hc hp hfill _

theorem paintFrameOutline_apply (hf : f.Placed) (focused : Bool) (s : ℕ × ℕ → Color) :
    v.paintFrameOutline f focused clip s p =
      if (clip.Mem p ∧ f.frameRect.Mem p) ∧ ¬ (f.maximized = true ∨ f.cw < 2) ∧ v.tgt.Has p then
        strokeInked f.ox f.oy f.cw f.fh f.corner (if focused then Theme.accent
          else Theme.border) p (s p)
      else s p := by
  have hfh : ¬ f.fh < 2 := by
    have : 32 ≤ f.fh := by
      have hh := hf.ch_lt
      show 32 ≤ satAdd 32 f.ch
      rw [satAdd_eq (by omega)]
      exact Nat.le_add_right ..
    omega
  rw [View.paintFrameOutline]
  by_cases hmax : f.maximized = true
  · rw [if_pos hmax, if_neg fun h => h.2.1 (.inl hmax)]
    rfl
  rw [if_neg hmax]
  by_cases hvis : (f.frameRect.intersect clip).IsEmpty
  · rw [if_pos hvis, if_neg]
    · rfl
    · rintro ⟨⟨hc, hp⟩, -⟩
      exact Rect.not_isEmpty_of_mem (Rect.mem_intersect.mpr ⟨hp, hc⟩) hvis
  · rw [if_neg hvis, strokeRound_apply]
    refine if_congr ?_ rfl rfl
    rw [mem_cut]
    exact ⟨fun h => ⟨h.1.1, fun hor => h.2.1 (.inl (hor.resolve_left hmax)), h.2.2⟩,
      fun h => ⟨⟨h.1, h.1.2⟩, fun hor => h.2.1 (.inr (hor.resolve_right hfh)), h.2.2⟩⟩

theorem paintFrameOutline_hides (hf : f.Placed) (hhas : v.tgt.Has p) (hc : clip.Mem p)
    (hp : f.frameRect.Mem p) (hline : f.outline p = 255) (focused : Bool) :
    Hides p (v.paintFrameOutline f focused clip) := by
  rw [Frame.outline] at hline
  split at hline
  · exact absurd hline (by decide)
  · rename_i hthin
    intro s s'
    rw [paintFrameOutline_apply hf, paintFrameOutline_apply hf]
    generalize (if focused = true then Theme.accent else Theme.border) = color
    rw [if_pos ⟨⟨hc, hp⟩, hthin, hhas⟩, if_pos ⟨⟨hc, hp⟩, hthin, hhas⟩]
    exact strokeInked_full hline ..

theorem paintFrameOutline_leaves (hf : f.Placed) (hline : f.outline p = 0) (focused : Bool)
    (s : ℕ × ℕ → Color) : v.paintFrameOutline f focused clip s p = s p := by
  rw [paintFrameOutline_apply hf]
  split
  · rename_i h
    rw [Frame.outline, if_neg h.2.1] at hline
    exact strokeInked_zero hline ..
  · rfl

end Hiding

section Stack

theorem frameBody_parts (hf : f.Placed) (hc : clip.Mem p) (focused : Bool) :
    ∀ d ∈ [v.paintShadowClip f clip, v.paintDecoClip f focused clip,
      v.paintClientClip vt v.clients f clip, v.paintFrameOutline f focused clip],
    Pointwise p d := by
  simp only [List.forall_mem_cons]
  exact ⟨paintShadowClip_clipped.reads.pointwise hc, paintDecoClip_pointwise hf hc focused,
    (paintClientClip_clipped _).reads.pointwise hc,
    (paintFrameOutline_clipped focused).reads.pointwise hc, fun _ h => absurd h List.not_mem_nil⟩

theorem frameBody_pointwise (hf : f.Placed) (hc : clip.Mem p) (focused : Bool) :
    Pointwise p (v.frameBody vt f focused clip) := .draws (frameBody_parts hf hc focused)

theorem frameBody_hides (hf : f.Placed) (hhas : v.tgt.Has p) (hc : clip.Mem p) (hp : f.Masks p)
    (focused : Bool) : Hides p (v.frameBody vt f focused clip) := by
  rcases hp with ⟨hdeco, hfill⟩ | ⟨hclient, hfill⟩ | ⟨hframe, hline⟩
  · have hvis : ¬ (f.decoRect.intersect clip).IsEmpty :=
      Rect.not_isEmpty_of_mem (Rect.mem_intersect.mpr ⟨hdeco, hc⟩)
    have hhide : Hides p (v.paintDecoClip f focused clip) := by
      rw [View.paintDecoClip, if_neg hvis]
      exact decoBody_hides hf hhas hc hdeco hfill focused
    exact .draws (frameBody_parts hf hc focused) (by simp) hhide
  · have hhide : Hides p (v.paintClientClip vt v.clients f clip) :=
      paintClientClip_hides hf hhas hc hclient hfill _
    exact .draws (frameBody_parts hf hc focused) (by simp) hhide
  · exact .draws (frameBody_parts hf hc focused) (by simp)
      (paintFrameOutline_hides hf hhas hc hframe hline focused)

theorem frameBody_clear (hf : f.Placed) (hp : f.Clear p) (focused : Bool) (s : ℕ × ℕ → Color) :
    v.frameBody vt f focused clip s p = v.paintShadowClip f clip s p := by
  have hframe : ¬ f.frameRect.Mem p := fun h => hp.body ((hf.mem_opaque p).mpr h)
  have hdeco : ¬ f.decoRect.Mem p :=
    fun h => hframe ((hf.mem_frame p).mpr (by have := (hf.mem_deco p).mp h; omega))
  have hclient : ¬ f.clientRect.Mem p :=
    fun h => hframe ((hf.mem_frame p).mpr (by have := (hf.mem_client p).mp h; omega))
  rw [View.frameBody, draws, draws, draws, draws, draws,
    (paintFrameOutline_clipped focused).keeps.outside _ _ _ hframe,
    (paintClientClip_clipped _).keeps.outside _ _ _ hclient,
    (paintDecoClip_keeps hf focused).outside _ _ _ fun h => h.elim hdeco hp.icons]

theorem paintFrames_windows : v.paintFrames vt clip = each v.wm.frames.zipIdx (v.window vt clip) :=
  each_congr fun _ hfi => paintFrame_eq (List.fst_mem_of_mem_zipIdx hfi) _ clip

theorem paintFrames_split {below above : List Frame} (h : v.wm.frames = below ++ f :: above)
    (s : ℕ × ℕ → Color) :
    v.paintFrames vt clip s =
      each (above.zipIdx (below.length + 1)) (v.window vt clip)
        (v.window vt clip (f, below.length) (each below.zipIdx (v.window vt clip) s)) := by
  rw [paintFrames_windows, h, List.zipIdx_append, each_append, List.zipIdx_cons, Nat.zero_add]
  rfl

theorem window_pointwise (hf : fi.1.Placed) (hc : clip.Mem p) : Pointwise p (v.window vt clip fi) :=
  .ite (fun _ _ h => h) (.ite (fun _ _ h => h) (frameBody_pointwise hf hc _))

theorem window_eq (hvis : fi.1.minimized = false) (hmeet : fi.1.shadowRect.Mem p)
    (hc : clip.Mem p) :
    v.window vt clip fi = v.frameBody vt fi.1 (v.wm.visibleTop = some fi.2) clip := by
  rw [View.window, if_neg (Bool.eq_false_iff.mp hvis),
    if_neg (not_not.mpr (Rect.intersects_iff.mpr ⟨_, _, hmeet, hc⟩))]

theorem Frame.Placed.shadow_of_frame (hf : f.Placed) (hp : f.frameRect.Mem p) :
    f.shadowRect.Mem p := by
  rw [hf.mem_frame] at hp
  rw [hf.mem_shadow]
  omega

theorem Frame.Placed.frame_of_masks (hf : f.Placed) (hp : f.Masks p) : f.frameRect.Mem p := by
  rcases hp with ⟨hdeco, -⟩ | ⟨hclient, -⟩ | ⟨hframe, -⟩
  · rw [hf.mem_deco] at hdeco
    rw [hf.mem_frame]
    omega
  · rw [hf.mem_client] at hclient
    rw [hf.mem_frame]
    omega
  · exact hframe

theorem window_hides (hf : fi.1.Placed) (hvis : fi.1.minimized = false) (hp : fi.1.Masks p)
    (hc : clip.Mem p) (hhas : v.tgt.Has p) : Hides p (v.window vt clip fi) := by
  rw [window_eq hvis (hf.shadow_of_frame (hf.frame_of_masks hp)) hc]
  exact frameBody_hides hf hhas hc hp _

theorem window_clear (hf : fi.1.Placed) (hvis : fi.1.minimized = false) (hp : fi.1.Clear p)
    (hc : clip.Mem p) (hc' : clip'.Mem p) {s s' : ℕ × ℕ → Color} (hs : s p = s' p) :
    v.window vt clip fi s p = (if fi.1.shadowRect.Intersects clip' then v.paintShadowClip fi.1 clip'
      else skip) s' p := by
  by_cases hshade : fi.1.Shades p
  · have hmem := hp.shadow hshade
    rw [window_eq hvis hmem hc, if_pos (Rect.intersects_iff.mpr ⟨_, _, hmem, hc'⟩),
      frameBody_clear hf hp]
    exact paintShadowClip_clipped.reads _ _ _ _ p hc hc' hs
  · have hslow : v.window vt clip fi s p = s p := by
      rw [View.window, if_neg (Bool.eq_false_iff.mp hvis)]
      split
      · rfl
      · rw [frameBody_clear hf hp, paintShadowClip_keeps hshade]
    rw [hslow, hs]
    split
    · exact (paintShadowClip_keeps hshade s').symm
    · rfl

theorem window_vt (hk : fi.1.kind ≠ .vt) : v.window vt clip fi = v.window vt' clip fi := by
  have hclient :
      v.paintClientClip vt v.clients fi.1 clip = v.paintClientClip vt' v.clients fi.1 clip := by
    rw [View.paintClientClip, View.paintClientClip]
    cases hkind : fi.1.kind with
    | vt => exact absurd hkind hk
    | files => rfl
    | settings => rfl
    | client id => rfl
  rw [View.window, View.window, View.frameBody, View.frameBody, hclient]

end Stack

end Layers

end CoeleoOs.Ui
