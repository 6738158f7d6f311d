import CoeleoOs.Ui.Fbterm
import CoeleoOs.Ui.Layers
import Mathlib.Data.List.TakeWhile

/-!
# The fast path of the terminal

When the terminal has written its canvas, the compositor copies the changed part of it into the
scene by itself, around the windows above, and then paints the shadows of those windows again. That
should come to the same pixels as a repaint of the damage does, time after time.
-/

namespace CoeleoOs.Ui
open CoeleoOs.Lib Pixel

/-- The parts of a rectangle around some holes. -/
def Rect.around (dest : Rect) (holes : List Rect) : List Rect :=
  holes.foldl (fun parts hole => parts.flatMap fun r => (r.sub hole).filter fun q => ¬ q.IsEmpty)
    [dest]

def Frame.vtClip (f : Frame) (d : Option Dirty) : Rect :=
  match d with
  | none => f.clientRect
  | some d =>
    f.clientRect.intersect ⟨satAdd f.ox d.x, satAdd (satAdd f.oy decoH) d.y,
      satAdd (satAdd f.ox d.x) d.w, satAdd (satAdd (satAdd f.oy decoH) d.y) d.h⟩

def visible (above : List Frame) : List Frame := above.filter fun g => !g.minimized

def holes (above : List Frame) : List Rect := ((visible above).take 4).map Frame.opaqueRect

namespace View

variable (v : View)

def fromVt : List Frame := v.wm.frames.dropWhile fun f => f.kind ≠ .vt

def paintVtExcept (c : Canvas) (f : Frame) (clip : Rect) (holes : List Rect) : Paint :=
  let dest := (f.opaqueRect.intersect clip).intersect f.clientRect
  if dest.IsEmpty then skip
  else each (dest.around holes) fun r => blitVis v.tgt f.ox (satAdd f.oy decoH) c f.win r

def damageVt (c : Canvas) (d : Option Dirty) : Paint :=
  match v.fromVt with
  | [] => skip
  | f :: above =>
    let clip := f.vtClip d
    if f.minimized ∨ clip.IsEmpty then skip
    else
      draws [v.paintVtExcept c f clip (holes above),
        each (visible above) fun g => if g.shadowRect.Intersects clip then v.paintShadowClip g clip
          else skip]

/-- The part of the screen that a part of the canvas is shown on. -/
def vtClip (d : Option Dirty) : Rect :=
  match v.fromVt with
  | [] => .empty
  | f :: _ => f.vtClip d

def overlays (clip : Rect) : Paint :=
  draws [if v.menus.launcherOpen then v.paintLauncherClip clip else skip,
    if v.menus.runnerOpen then v.paintKrunnerClip clip else skip, v.paintAbove clip]

/-- The pixels of the work area that a popup changes. -/
def Overlaid (p : ℕ × ℕ) : Prop :=
  v.menus.launcherOpen = true ∧ (v.Beside v.launcherPopup p ∨ v.FooterAt p) ∨
    v.menus.runnerOpen = true ∧ v.Beside v.krunnerPopup p ∨ v.menus.powerDlg ≠ none ∨
      v.menus.deskMenuOpen = true ∧ v.Beside v.deskMenuPopup p ∨
        v.menus.filesMenuOpen = true ∧ v.Beside v.filesMenuPopup p ∨ v.toast ≠ [] ∧
        v.toastRect.Mem p

end View

def Frame.drawn (f : Frame) (c : Canvas) (p : ℕ × ℕ) (d : Color) : Color :=
  if c.Covers f.ox (satAdd f.oy decoH) p
    then f.win.copied (c.at' (p.1 - f.ox) (p.2 - satAdd f.oy decoH)) p d else d

/-- The corner of the window cuts a pixel off. -/
def Frame.CutOff (f : Frame) (p : ℕ × ℕ) : Prop := ¬ f.win.Solid p ∧ f.win.cov p.1 p.2 = 0

/-- Two canvases that a window shows alike at a pixel. -/
structure Frame.Alike (f : Frame) (c c' : Canvas) (p : ℕ × ℕ) : Prop where
  covers : c.Covers f.ox (satAdd f.oy decoH) p ↔ c'.Covers f.ox (satAdd f.oy decoH) p
  color : c.Covers f.ox (satAdd f.oy decoH) p →
    c.at' (p.1 - f.ox) (p.2 - satAdd f.oy decoH) = c'.at' (p.1 - f.ox) (p.2 - satAdd f.oy decoH)

/-- A pixel that shows the canvas, with nothing but shadows over it. -/
structure View.Fresh (v : View) (f : Frame) (above : List Frame) (c : Canvas) (p : ℕ × ℕ) :
    Prop where
  work : v.workRect.Mem p
  covers : c.Covers f.ox (satAdd f.oy decoH) p
  full : f.win.Solid p ∨ f.win.cov p.1 p.2 = 255
  outline : f.outline p = 0
  clear : ∀ g ∈ visible above, g.Clear p
  overlays : ¬ v.Overlaid p

/-- A pixel that the fast path leaves as it is, and that needs no paint. -/
structure View.Still (v : View) (f : Frame) (above : List Frame) (past : List Canvas) (c : Canvas)
    (p : ℕ × ℕ) : Prop where
  left : ¬ c.Covers f.ox (satAdd f.oy decoH) p ∨ f.CutOff p ∨ ∃ hole ∈ holes above, hole.Mem p
  shades : ∀ g ∈ visible above, ¬ g.Shades p
  same :
    v.workRect.Mem p → (∃ g ∈ visible above, g.Masks p) ∨ f.CutOff p ∨ ∀ c' ∈ past, f.Alike c' c p

section Screen

variable {v : View} {c c' : Canvas} {f : Frame} {above : List Frame} {clip : Rect} {p : ℕ × ℕ}

theorem around_mem {dest : Rect} {hs : List Rect} :
    (∃ r ∈ dest.around hs, r.Mem p) ↔ dest.Mem p ∧ ∀ hole ∈ hs, ¬ hole.Mem p := by
  have hfold (parts : List Rect) : (∃ r ∈ hs.foldl (fun parts hole => parts.flatMap fun r =>
      (r.sub hole).filter fun q => ¬ q.IsEmpty) parts, r.Mem p) ↔ (∃ r ∈ parts, r.Mem p) ∧
        ∀ hole ∈ hs, ¬ hole.Mem p := by
    induction hs generalizing parts with
    | nil => simp
    | cons hole hs ih =>
      have hstep :
          (∃ r ∈ parts.flatMap fun r => (r.sub hole).filter fun q => ¬ q.IsEmpty, r.Mem p) ↔
          (∃ r ∈ parts, r.Mem p) ∧ ¬ hole.Mem p := by
        constructor
        · rintro ⟨q, hq, hmem⟩
          obtain ⟨r, hr, hq⟩ := List.mem_flatMap.mp hq
          have hsub := Rect.sub_covers.mp ⟨q, (List.mem_filter.mp hq).1, hmem⟩
          exact ⟨⟨r, hr, hsub.1⟩, hsub.2⟩
        · rintro ⟨⟨r, hr, hmem⟩, hhole⟩
          obtain ⟨q, hq, hqmem⟩ := Rect.sub_covers.mpr ⟨hmem, hhole⟩
          have hne : ¬ q.IsEmpty := Rect.not_isEmpty_of_mem (p := p) hqmem
          exact ⟨q, List.mem_flatMap.mpr ⟨r, hr, List.mem_filter.mpr ⟨hq, decide_eq_true hne⟩⟩,
            hqmem⟩
      rw [List.foldl_cons, ih, hstep, List.forall_mem_cons, and_assoc]
  rw [Rect.around, hfold]
  simp only [List.mem_singleton, exists_eq_left]

theorem around_inside {dest : Rect} {hs : List Rect} {r : Rect} (hr : r ∈ dest.around hs) :
    r.Inside dest := by
  have hfold (hs parts : List Rect) (hparts : ∀ r ∈ parts, r.Inside dest) :
      ∀ r ∈ hs.foldl (fun parts hole =>
      parts.flatMap fun r => (r.sub hole).filter fun q => ¬ q.IsEmpty) parts, r.Inside dest := by
    induction hs generalizing parts with
    | nil => exact hparts
    | cons hole hs ih =>
      refine ih _ fun q hq => ?_
      obtain ⟨r, hr, hq⟩ := List.mem_flatMap.mp hq
      exact (Rect.sub_inside (List.mem_filter.mp hq).1).trans (hparts r hr)
  refine hfold hs [dest] (fun r hr => ?_) r hr
  rw [List.mem_singleton.mp hr]
  exact .refl dest

theorem blitVis_drawn {r : Rect} (hr : r.Inside f.clientRect) (s : ℕ × ℕ → Color) :
    blitVis v.tgt f.ox (satAdd f.oy decoH) c f.win r s p = if r.Mem p ∧ v.tgt.Has p
      then f.drawn c p (s p) else s p := by
  have hx0 : f.ox ≤ r.x0 := hr.left
  have hy0 : satAdd f.oy decoH ≤ r.y0 := hr.top
  have hx1 : r.x1 < 2 ^ 32 := hr.right.trans_lt (satAdd_lt ..)
  have hy1 : r.y1 < 2 ^ 32 := hr.bottom.trans_lt (satAdd_lt ..)
  rw [blitVis_apply hx0 hy0 hx1 hy1, Frame.drawn]
  by_cases hcov : c.Covers f.ox (satAdd f.oy decoH) p
  · rw [if_pos hcov]
    exact if_congr (and_congr_right fun _ => and_iff_right hcov) rfl rfl
  · rw [if_neg hcov, ite_self, if_neg fun h => hcov h.2.1]

def Frame.Settles (f : Frame) (c : Canvas) (p : ℕ × ℕ) : Prop :=
  ∀ d, f.drawn c p (f.drawn c p d) = f.drawn c p d

theorem inside_client (f : Frame) (clip : Rect) :
    ((f.opaqueRect.intersect clip).intersect f.clientRect).Inside f.clientRect :=
  Rect.intersect_inside_right _ _

theorem paintVtExcept_apply (hset : f.Settles c p) (hs : List Rect) (s : ℕ × ℕ → Color) :
    v.paintVtExcept c f clip hs s p =
      if (((f.opaqueRect.intersect clip).intersect f.clientRect).Mem p ∧
        ∀ hole ∈ hs, ¬ hole.Mem p) ∧ v.tgt.Has p then
        f.drawn c p (s p)
      else s p := by
  rw [View.paintVtExcept]
  by_cases hempty : ((f.opaqueRect.intersect clip).intersect f.clientRect).IsEmpty
  · rw [if_pos hempty, if_neg fun h => Rect.not_isEmpty_of_mem h.1.1 hempty, skip_apply]
  · rw [if_neg hempty, each_apply (M := fun r => r.Mem p ∧ v.tgt.Has p) hset fun r hr s =>
      blitVis_drawn ((around_inside hr).trans (inside_client f clip)) s]
    refine if_congr ?_ rfl rfl
    rw [← around_mem]
    exact ⟨fun ⟨r, hr, hmem, hhas⟩ => ⟨⟨r, hr, hmem⟩, hhas⟩, fun ⟨⟨r, hr, hmem⟩, hhas⟩ =>
      ⟨r, hr, hmem, hhas⟩⟩

theorem paintVtExcept_keeps {hs : List Rect}
    (hp : ¬ ((((f.opaqueRect.intersect clip).intersect f.clientRect).Mem p ∧
      ∀ hole ∈ hs, ¬ hole.Mem p) ∧ v.tgt.Has p)) (s : ℕ × ℕ → Color) : v.paintVtExcept c f clip hs s
        p = s p := by
  rw [View.paintVtExcept]
  split
  · rfl
  · refine each_keeps (fun r hr s => ?_) s
    rw [blitVis_drawn ((around_inside hr).trans (inside_client f clip)), if_neg]
    rintro ⟨hmem, hhas⟩
    exact hp ⟨around_mem.mp ⟨r, hr, hmem⟩, hhas⟩

theorem paintVtExcept_outside (hp : ¬ (clip.Mem p ∧ v.tgt.Has p)) (hs : List Rect)
    (s : ℕ × ℕ → Color) : v.paintVtExcept c f clip hs s p = s p :=
  paintVtExcept_keeps (fun h => hp ⟨(Rect.mem_intersect.mp (Rect.mem_intersect.mp h.1.1).1).2, h.2⟩)
    s

theorem paintVtExcept_hole {hs : List Rect} {hole : Rect} (hhole : hole ∈ hs) (hp : hole.Mem p)
    (s : ℕ × ℕ → Color) : v.paintVtExcept c f clip hs s p = s p :=
  paintVtExcept_keeps (fun h => h.1.2 hole hhole hp) s

theorem copied_cutOff (hcut : f.CutOff p) (color d : Color) : f.win.copied color p d = d := by
  rw [RoundWin.copied, if_neg hcut.1, RoundWin.inked, if_pos hcut.2]

theorem copied_full (hfull : f.win.Solid p ∨ f.win.cov p.1 p.2 = 255) (color d d' : Color) :
    f.win.copied color p d = f.win.copied color p d' := by
  rw [RoundWin.copied, RoundWin.copied]
  split
  · rfl
  · rename_i hsolid
    rw [RoundWin.inked, RoundWin.inked, hfull.resolve_left hsolid]
    rfl

theorem drawn_cutOff (hcut : f.CutOff p) (d : Color) : f.drawn c p d = d := by
  rw [Frame.drawn, copied_cutOff hcut, ite_self]

theorem drawn_full (hcov : c.Covers f.ox (satAdd f.oy decoH) p)
    (hfull : f.win.Solid p ∨ f.win.cov p.1 p.2 = 255) (d d' : Color) :
    f.drawn c p d = f.drawn c p d' := by
  rw [Frame.drawn, Frame.drawn, if_pos hcov, if_pos hcov]
  exact copied_full hfull ..

theorem drawn_alike (h : f.Alike c c' p) (d : Color) : f.drawn c p d = f.drawn c' p d := by
  rw [Frame.drawn, Frame.drawn]
  by_cases hcov : c.Covers f.ox (satAdd f.oy decoH) p
  · rw [if_pos hcov, if_pos (h.covers.mp hcov), h.color hcov]
  · rw [if_neg hcov, if_neg fun hcov' => hcov (h.covers.mpr hcov')]

theorem shadow_beyond (hp : ¬ v.tgt.Has p) (g : Frame) (clip : Rect) (s : ℕ × ℕ → Color) :
    v.paintShadowClip g clip s p = s p := by
  rw [View.paintShadowClip]
  split
  · rfl
  · refine each_keeps (fun band _ s => ?_) s
    by_cases hvis : (clip.intersect band).IsEmpty
    · rw [if_pos hvis, skip_apply]
    · rw [if_neg hvis]
      refine each_keeps (fun y _ s => each_keeps (fun x _ s => ?_) s) s
      rw [shadePx_apply, if_neg fun h => hp h.2]

theorem vtClip_eq (hvt : v.fromVt = f :: above) (d : Option Dirty) : v.vtClip d = f.vtClip d := by
  rw [View.vtClip, hvt]

theorem damageVt_none (hvt : v.fromVt = []) (d : Option Dirty) : v.damageVt c d = skip := by
  rw [View.damageVt, hvt]

theorem damageVt_eq (hvt : v.fromVt = f :: above) (d : Option Dirty) : v.damageVt c d =
    if f.minimized = true ∨ (f.vtClip d).IsEmpty then skip
    else
      draws [v.paintVtExcept c f (f.vtClip d) (holes above), each (visible above) fun g =>
        if g.shadowRect.Intersects (f.vtClip d) then v.paintShadowClip g (f.vtClip d)
          else skip] := by
  rw [View.damageVt, hvt]

theorem damageVt_alone {d : Option Dirty} (hvt : v.fromVt = [f])
    (hbusy : ¬ (f.minimized = true ∨ (f.vtClip d).IsEmpty))
    (hvis : ¬ ((f.opaqueRect.intersect (f.vtClip d)).intersect f.clientRect).IsEmpty) :
    v.damageVt c d = blitVis v.tgt f.ox (satAdd f.oy decoH) c f.win
      ((f.opaqueRect.intersect (f.vtClip d)).intersect f.clientRect) := by
  rw [damageVt_eq hvt, if_neg hbusy, View.paintVtExcept, if_neg hvis]
  rfl

theorem damageVt_outside {d : Option Dirty} (hp : ¬ ((v.vtClip d).Mem p ∧ v.tgt.Has p))
    (s : ℕ × ℕ → Color) : v.damageVt c d s p = s p := by
  cases hvt : v.fromVt with
  | nil => rw [damageVt_none hvt, skip_apply]
  | cons f above =>
    rw [vtClip_eq hvt] at hp
    rw [damageVt_eq hvt]
    split
    · rfl
    · rw [draws, draws, draws, each_keeps fun g _ s => ?_]
      · exact paintVtExcept_outside hp _ s
      · split
        · by_cases hhas : v.tgt.Has p
          · exact paintShadowClip_clipped.keeps _ s p fun h => hp ⟨h.1, hhas⟩
          · exact shadow_beyond hhas g _ s
        · rfl

end Screen

section Repaint

variable {v : View} {c c' : Canvas} {f : Frame} {above : List Frame} {p : ℕ × ℕ}

theorem fromVt_split (hvt : v.fromVt = f :: above) :
    ∃ below, v.wm.frames = below ++ f :: above ∧ f.kind = .vt ∧ (∀ g ∈ below, g.kind ≠ .vt) ∧
    ∀ g ∈ above, g.kind ≠ .vt := by
  have hsplit : v.wm.frames = (v.wm.frames.takeWhile fun f => f.kind ≠ .vt) ++ f :: above := by
    rw [← hvt, View.fromVt, List.takeWhile_append_dropWhile]
  have hkind : f.kind = .vt := by
    have hhead := List.head?_dropWhile_not (fun f : Frame => decide (f.kind ≠ .vt)) v.wm.frames
    rw [show (v.wm.frames.dropWhile fun f => decide (f.kind ≠ .vt)) = f :: above from hvt] at hhead
    simpa using hhead
  refine ⟨_, hsplit, hkind, fun g hg => ?_, fun g hg => ?_⟩
  · have h := List.mem_takeWhile_imp hg
    exact of_decide_eq_true h
  · have hone := v.single
    rw [hsplit, List.filter_append, List.length_append,
      List.filter_cons_of_pos (by simpa using hkind), List.length_cons] at hone
    have hnil : (above.filter fun f => f.kind = .vt) = [] :=
      List.eq_nil_of_length_eq_zero (by omega)
    intro hgk
    exact absurd (decide_eq_true hgk) (List.filter_eq_nil_iff.mp hnil g hg)

theorem meets_work (v : View) : v.Meets v.workRect := by
  have hself : v.workRect.intersect v.workRect = v.workRect := by simp [Rect.intersect]
  refine ⟨fun f _ _ => ?_, fun _ _ _ _ => ?_⟩
  · rw [hself]
    exact ⟨fun hmeet _ _ _ => hmeet, fun hmeet _ _ _ => hmeet⟩
  · rw [hself]
    exact launcher_meets v

theorem mem_work_work (hp : v.workRect.Mem p) : (v.workRect.intersect v.workRect).Mem p :=
  Rect.mem_intersect.mpr ⟨hp, hp⟩

theorem presentDamage_work (hp : v.workRect.Mem p) (vt : Option Canvas) (s : ℕ × ℕ → Color) :
    v.presentDamage vt v.workRect s =
      v.overlays v.workRect (v.paintFrames vt v.workRect (v.fillRectR v.workRect s)) := by
  have hself : v.workRect.intersect v.workRect = v.workRect := by simp [Rect.intersect]
  rw [View.presentDamage, hself, if_neg (Rect.not_isEmpty_of_mem hp)]
  rfl

theorem overlays_pointwise (hp : v.workRect.Mem p) : Pointwise p (v.overlays v.workRect) := by
  let good : Rect → Prop := fun clip => clip = v.workRect
  have hgood : Rect.Among good v.workRect p := ⟨hp, rfl⟩
  have hlauncher : Reads (Rect.Among good) v.paintLauncherClip :=
    paintLauncherClip_reads fun clip _ hclip _ _ => by
    rw [hclip]
    exact launcher_meets v
  have hreads : Reads (Rect.Among good) v.overlays :=
    .cons (.ite hlauncher .nil) (.cons (.ite paintKrunnerClip_reads .nil)
      (.cons paintAbove_reads .nil))
  exact hreads.pointwise hgood

theorem overlays_leaves (hp : ¬ v.Overlaid p) (clip : Rect) (s : ℕ × ℕ → Color) :
    v.overlays clip s p = s p := by
  simp only [View.Overlaid, not_or, not_and] at hp
  obtain ⟨hlauncher, hrunner, hdlg, hdesk, hfiles, htoast⟩ := hp
  refine draws_keeps ?_ s
  simp only [List.forall_mem_cons]
  refine ⟨fun s => ?_, fun s => ?_, fun s => draws_keeps ?_ s, fun _ h => absurd h List.not_mem_nil⟩
  · split
    · rename_i hopen
      exact paintLauncherClip_keeps.outside clip s p (not_or.mpr (hlauncher hopen))
    · rfl
  · split
    · rename_i hopen
      have hbeside := not_or.mp (hrunner hopen)
      exact popup_outside (shadeKrunnerPx_apply v.krunnerPopup) (fun _ _ h => if_neg h) hbeside.1
        (fun s => krunnerBody_outside clip s p hbeside.2) s
    · rfl
  · simp only [List.forall_mem_cons]
    refine ⟨fun s => ?_, fun s => ?_, fun s => ?_, fun s => ?_, fun _ h =>
      absurd h List.not_mem_nil⟩
    · exact paintDialog_clipped.keeps.outside clip s p fun h => hdlg h.1
    · split
      · rename_i hopen
        exact paintDeskMenuClip_keeps.outside clip s p (hdesk hopen)
      · rfl
    · split
      · rename_i hopen
        exact paintFilesMenuClip_keeps.outside clip s p (hfiles hopen)
      · rfl
    · split
      · rfl
      · rename_i hmsg
        exact paintToastClip_clipped.keeps.outside clip s p (htoast hmsg)

theorem paintClientClip_vt {clip : Rect} (hk : f.kind = .vt) (hc : clip.Mem p) (hhas : v.tgt.Has p)
    (hp : f.clientRect.Mem p) (clients : List (ℕ × Canvas)) (s : ℕ × ℕ → Color) :
    v.paintClientClip (some c) clients f clip s p =
      f.drawn c p (f.win.filled Theme.bg p (s p)) := by
  have hvis : (f.clientRect.intersect clip).Mem p := Rect.mem_intersect.mpr ⟨hp, hc⟩
  unfold View.paintClientClip
  rw [if_neg (Rect.not_isEmpty_of_mem hvis), hk]
  show v.picture f (some c) (f.clientRect.intersect clip) s p = _
  rw [View.picture, draws, draws, draws, blitVis_drawn (Rect.intersect_inside_left _ _),
    if_pos ⟨hvis, hhas⟩, RoundWin.fill_apply, if_pos ⟨hvis, hhas⟩]

theorem vtWindow_same {clip : Rect} (hk : f.kind = .vt) (hc : clip.Mem p) (hhas : v.tgt.Has p)
    (hp : f.clientRect.Mem p) (hsame : f.minimized = true ∨ ∀ d, f.drawn c' p d = f.drawn c p d)
    (i : ℕ) (s : ℕ × ℕ → Color) :
    v.window (some c') clip (f, i) s p = v.window (some c) clip (f, i) s p := by
  rw [View.window, View.window]
  by_cases hmin : f.minimized = true
  · rw [if_pos hmin, if_pos hmin]
  rw [if_neg hmin, if_neg hmin]
  have hdrawn := hsame.resolve_left hmin
  split
  · rfl
  · rw [View.frameBody, View.frameBody, draws, draws, draws, draws, draws, draws, draws, draws,
      draws, draws]
    refine (paintFrameOutline_clipped _).reads.pointwise hc _ _ ?_
    rw [paintClientClip_vt hk hc hhas hp, paintClientClip_vt hk hc hhas hp, hdrawn]

theorem vtWindow_fresh (hf : f.Placed) (hk : f.kind = .vt) (hmin : f.minimized = false)
    (hfresh : v.Fresh f above c p) (hp : f.clientRect.Mem p) (i : ℕ) (s : ℕ × ℕ → Color)
    (d : Color) : v.window (some c) v.workRect (f, i) s p = f.drawn c p d := by
  have hframe : f.frameRect.Mem p :=
    (hf.mem_frame p).mpr (by have := (hf.mem_client p).mp hp; omega)
  have hshadow : f.shadowRect.Mem p := hf.shadow_of_frame hframe
  have hwindow :
      v.window (some c) v.workRect (f, i) = v.frameBody (some c) f (v.wm.visibleTop = some i)
        v.workRect :=
    window_eq hmin hshadow hfresh.work
  rw [hwindow, View.frameBody, draws, draws, draws, draws, draws,
    paintFrameOutline_leaves hf hfresh.outline,
    paintClientClip_vt hk hfresh.work (work_has hfresh.work) hp]
  exact drawn_full hfresh.covers hfresh.full ..

theorem above_shades {clip : Rect} (hc : clip.Mem p) (hp : v.workRect.Mem p)
    (hplaced : ∀ g ∈ above, g.Placed) (hclear : ∀ g ∈ visible above, g.Clear p) (vt : Option Canvas)
    (i : ℕ) {s s' : ℕ × ℕ → Color} (hs : s p = s' p) :
    each (above.zipIdx i) (v.window vt v.workRect) s p = each (visible above)
      (fun g => if g.shadowRect.Intersects clip then v.paintShadowClip g clip else skip) s' p := by
  induction above generalizing i s s' with
  | nil => exact hs
  | cons g above ih =>
    have hplaced' : ∀ g ∈ above, g.Placed := fun g hg => hplaced g (List.mem_cons_of_mem _ hg)
    have hcons : each ((g :: above).zipIdx i) (v.window vt v.workRect) s =
        each (above.zipIdx (i + 1)) (v.window vt v.workRect) (v.window vt v.workRect (g, i) s) :=
      rfl
    rw [hcons]
    by_cases hmin : g.minimized = true
    · have hvis : visible (g :: above) = visible above := List.filter_cons_of_neg (by simp [hmin])
      have hskip : v.window vt v.workRect (g, i) s = s := by
        rw [View.window, if_pos hmin, skip_apply]
      rw [hvis] at hclear ⊢
      rw [hskip]
      exact ih hplaced' hclear _ hs
    · have hvis : visible (g :: above) = g :: visible above :=
        List.filter_cons_of_pos (by simp [hmin])
      rw [hvis] at hclear ⊢
      refine ih hplaced' (fun g hg => hclear g (List.mem_cons_of_mem _ hg)) _ ?_
      exact window_clear (hplaced g (List.mem_cons_self ..)) (eq_false_of_ne_true hmin)
        (hclear g (List.mem_cons_self ..)) hp hc hs

theorem above_pointwise (hp : v.workRect.Mem p) (hplaced : ∀ g ∈ above, g.Placed)
    (vt : Option Canvas) (i : ℕ) : Pointwise p (each (above.zipIdx i) (v.window vt v.workRect)) :=
  .each fun _ hgi => window_pointwise (hplaced _ (List.fst_mem_of_mem_zipIdx hgi)) hp

theorem above_hides (hp : v.workRect.Mem p) (hplaced : ∀ g ∈ above, g.Placed) {g : Frame}
    (hg : g ∈ visible above) (hmask : g.Masks p) (vt : Option Canvas) (i : ℕ) :
    Hides p (each (above.zipIdx i) (v.window vt v.workRect)) := by
  obtain ⟨hmem, hvis⟩ := List.mem_filter.mp hg
  obtain ⟨j, hj, hget⟩ := List.mem_iff_getElem.mp hmem
  have hgi : (g, i + j) ∈ above.zipIdx i :=
    List.mk_add_mem_zipIdx_iff_getElem?.mpr (List.getElem?_eq_some_iff.mpr ⟨hj, hget⟩)
  exact .each (fun _ hgi => window_pointwise (hplaced _ (List.fst_mem_of_mem_zipIdx hgi)) hp) hgi
    (window_hides (hplaced g hmem) (by simpa using hvis) hmask hp (work_has hp))

theorem repaint_scene (hp : v.workRect.Mem p) (vt : Option Canvas) (s s' : ℕ × ℕ → Color) :
    v.presentDamage vt v.workRect s p = v.presentDamage vt v.workRect s' p :=
  inside_of_meets (meets_work v) s s' p (mem_work_work hp)

theorem placed_of_fromVt (hvt : v.fromVt = f :: above) : f.Placed ∧ ∀ g ∈ above, g.Placed := by
  obtain ⟨below, hframes, -⟩ := fromVt_split hvt
  refine ⟨v.placed f ?_, fun g hg => v.placed g ?_⟩
  · rw [hframes]
    simp
  · rw [hframes]
    simp [hg]

theorem repaint_same (hp : v.workRect.Mem p) (hvt : v.fromVt = f :: above)
    (hclient : f.clientRect.Mem p) (hsame : f.minimized = true ∨ (∃ g ∈ visible above, g.Masks p) ∨
      f.CutOff p ∨ f.Alike c' c p) (s : ℕ × ℕ → Color) : v.presentDamage (some c') v.workRect s p =
        v.presentDamage (some c) v.workRect s p := by
  obtain ⟨below, hframes, hk, hbelow, habove⟩ := fromVt_split hvt
  have hplaced := (placed_of_fromVt hvt).2
  have hother {l : List Frame} (hl : ∀ g ∈ l, g.kind ≠ .vt) (i : ℕ) :
      each (l.zipIdx i) (v.window (some c') v.workRect) =
        each (l.zipIdx i) (v.window (some c) v.workRect) :=
    each_congr fun gi hgi => window_vt (hl gi.1 (List.fst_mem_of_mem_zipIdx hgi))
  rw [presentDamage_work hp, presentDamage_work hp, paintFrames_split hframes,
    paintFrames_split hframes, hother habove, hother hbelow]
  refine overlays_pointwise hp _ _ ?_
  by_cases hmask : ∃ g ∈ visible above, g.Masks p
  · obtain ⟨g, hg, hmask⟩ := hmask
    exact above_hides hp hplaced hg hmask _ _ _ _
  · refine above_pointwise hp hplaced _ _ _ _ (vtWindow_same hk hp (work_has hp) hclient ?_ _ _)
    refine hsame.imp_right fun h => ?_
    intro d
    rcases h.resolve_left hmask with hcut | halike
    · rw [drawn_cutOff hcut, drawn_cutOff hcut]
    · exact drawn_alike halike d

theorem vtClip_client {d : Option Dirty} (hp : (f.vtClip d).Mem p) : f.clientRect.Mem p := by
  cases d with
  | none => exact hp
  | some d => exact (Rect.mem_intersect.mp hp).1

theorem hole_mem {hole : Rect} (h : hole ∈ holes above) :
    ∃ g ∈ visible above, hole = g.opaqueRect := by
  obtain ⟨g, hg, rfl⟩ := List.mem_map.mp h
  exact ⟨g, List.mem_of_mem_take hg, rfl⟩

theorem damageVt_fresh {d : Option Dirty} (hvt : v.fromVt = f :: above) (hmin : f.minimized = false)
    (hp : (f.vtClip d).Mem p) (hfresh : v.Fresh f above c p) (s s' : ℕ × ℕ → Color) :
    v.damageVt c d s p = v.presentDamage (some c) v.workRect s' p := by
  obtain ⟨below, hframes, hk, -, habove⟩ := fromVt_split hvt
  obtain ⟨hf, hplaced⟩ := placed_of_fromVt hvt
  have hclient := vtClip_client hp
  have hwhole : f.opaqueRect.Mem p :=
    (hf.mem_opaque p).mpr ((hf.mem_frame p).mpr (by have := (hf.mem_client p).mp hclient; omega))
  have hdest : ((f.opaqueRect.intersect (f.vtClip d)).intersect f.clientRect).Mem p :=
    Rect.mem_intersect.mpr ⟨Rect.mem_intersect.mpr ⟨hwhole, hp⟩, hclient⟩
  have hholes : ∀ hole ∈ holes above, ¬ hole.Mem p := fun hole hhole hmem => by
    obtain ⟨g, hg, rfl⟩ := hole_mem hhole
    exact (hfresh.clear g hg).body hmem
  have hbusy : ¬ (f.minimized = true ∨ (f.vtClip d).IsEmpty) :=
    not_or.mpr ⟨Bool.eq_false_iff.mp hmin, Rect.not_isEmpty_of_mem hp⟩
  rw [damageVt_eq hvt, if_neg hbusy, presentDamage_work hfresh.work,
    overlays_leaves hfresh.overlays, paintFrames_split hframes]
  symm
  refine above_shades hp hfresh.work hplaced hfresh.clear _ _ ?_
  rw [vtWindow_fresh hf hk hmin hfresh hclient _ _ (s p),
    paintVtExcept_apply (fun d => drawn_full hfresh.covers hfresh.full ..),
    if_pos ⟨⟨hdest, hholes⟩, work_has hfresh.work⟩]

theorem damageVt_still {past : List Canvas} {d : Option Dirty} (hvt : v.fromVt = f :: above)
    (hstill : v.Still f above past c p) (s : ℕ × ℕ → Color) : v.damageVt c d s p = s p := by
  rw [damageVt_eq hvt]
  split
  · rfl
  · rw [draws, draws, draws, each_keeps fun g hg s => ?_]
    · rcases hstill.left with hcov | hcut | ⟨hole, hhole, hmem⟩
      · have hdrawn (d : Color) : f.drawn c p d = d := if_neg hcov
        rw [paintVtExcept_apply fun d => by rw [hdrawn], hdrawn, ite_self]
      · rw [paintVtExcept_apply fun d => by rw [drawn_cutOff hcut], drawn_cutOff hcut, ite_self]
      · exact paintVtExcept_hole hhole hmem s
    · split
      · exact paintShadowClip_keeps (hstill.shades g hg) s
      · rfl

end Repaint

namespace View

variable (v : View)

def Shows (past : List Canvas) (s : ℕ × ℕ → Color) : Prop :=
  ∀ p, v.workRect.Mem p → ∃ c ∈ past, v.presentDamage (some c) v.workRect s p = s p

/-- A repaint of the work area changes nothing. -/
def UpToDate (c : Canvas) (s : ℕ × ℕ → Color) : Prop :=
  ∀ p, v.workRect.Mem p → v.presentDamage (some c) v.workRect s p = s p

/-- An update that meets each pixel of its part of the screen as a fresh one or as one to be
left. -/
structure Calm (past : List Canvas) (c : Canvas) (d : Option Dirty) : Prop where
  sep : v.SepInside (v.vtClip d)
  titles : v.TitlesElide v.workRect
  meets : v.Meets (v.vtClip d)
  pixels : ∀ f above, v.fromVt = f :: above → f.minimized = false → ∀ p, (f.vtClip d).Mem p →
    v.tgt.Has p → v.Fresh f above c p ∨ v.Still f above past c p

/-- The updates of a canvas, one after the other. -/
def vtRun (us : List (Canvas × Option Dirty)) : Paint := each us fun u => v.damageVt u.1 u.2

end View

section Runs

variable {v : View} {past : List Canvas} {c : Canvas} {d : Option Dirty} {s : ℕ × ℕ → Color}

theorem damageVt_left {f : Frame} {above : List Frame} (hvt : v.fromVt = f :: above)
    (hmin : f.minimized = true) (s : ℕ × ℕ → Color) : v.damageVt c d s = s := by
  rw [damageVt_eq hvt, if_pos (.inl hmin), skip_apply]

theorem damageVt_agrees (hcalm : v.Calm past c d) (hs : v.Shows past s) :
    v.damageVt c d s = v.presentDamage (some c) (v.vtClip d) s := by
  funext p
  by_cases hin : ((v.vtClip d).intersect v.workRect).Mem p
  · obtain ⟨hclip, hwork⟩ := Rect.mem_intersect.mp hin
    rw [inside_of_meets hcalm.meets s s p hin]
    obtain ⟨c', hc', hshow⟩ := hs p hwork
    cases hvt : v.fromVt with
    | nil =>
      rw [View.vtClip, hvt] at hclip
      exact absurd hclip.2.1 (Nat.not_lt_zero _)
    | cons f above =>
      rw [vtClip_eq hvt] at hclip
      by_cases hmin : f.minimized = true
      · rw [damageVt_left hvt hmin, ← repaint_same hwork hvt (vtClip_client hclip) (.inl hmin),
          hshow]
      · have hmin := eq_false_of_ne_true hmin
        rcases hcalm.pixels f above hvt hmin p hclip (work_has hwork) with hfresh | hstill
        · exact damageVt_fresh hvt hmin hclip hfresh s s
        · have hsame :=
            (hstill.same hwork).imp_right fun h => h.imp_right fun halike => halike c' hc'
          rw [damageVt_still hvt hstill, ← repaint_same hwork hvt (vtClip_client hclip)
            (.inr hsame), hshow]
  · rw [outside_iff.mpr hcalm.sep s p hin]
    by_cases hscreen : (v.vtClip d).Mem p ∧ v.tgt.Has p
    · cases hvt : v.fromVt with
      | nil => rw [damageVt_none hvt, skip_apply]
      | cons f above =>
        by_cases hmin : f.minimized = true
        · rw [damageVt_left hvt hmin]
        · have hclip := hscreen.1
          rw [vtClip_eq hvt] at hclip
          rcases hcalm.pixels f above hvt (eq_false_of_ne_true hmin) p hclip hscreen.2
              with hfresh | hstill
          · exact absurd (Rect.mem_intersect.mpr ⟨hscreen.1, hfresh.work⟩) hin
          · exact damageVt_still hvt hstill s
    · exact damageVt_outside hscreen s

theorem damageVt_shows (hcalm : v.Calm past c d) (hs : v.Shows past s) :
    v.Shows (past ++ [c]) (v.damageVt c d s) := by
  intro p hwork
  rw [damageVt_agrees hcalm hs]
  by_cases hin : ((v.vtClip d).intersect v.workRect).Mem p
  · refine ⟨c, by simp, ?_⟩
    rw [inside_of_meets hcalm.meets s s p hin]
    exact repaint_scene hwork _ _ _
  · obtain ⟨c', hc', hshow⟩ := hs p hwork
    refine ⟨c', by simp [hc'], ?_⟩
    rw [outside_iff.mpr hcalm.sep s p hin, repaint_scene hwork _ _ s, hshow]

theorem vtRun_shows {us : List (Canvas × Option Dirty)}
    (h : ∀ done u rest, us = done ++ u :: rest → v.Calm (past ++ done.map Prod.fst) u.1 u.2)
    (hs : v.Shows past s) : v.Shows (past ++ us.map Prod.fst) (v.vtRun us s) := by
  induction us generalizing past s with
  | nil =>
    rw [List.map_nil, List.append_nil]
    exact hs
  | cons u us ih =>
    have hfirst : v.Calm past u.1 u.2 := by
      have h0 := h [] u us rfl
      rwa [List.map_nil, List.append_nil] at h0
    have hrest :
        v.Shows ((past ++ [u.1]) ++ us.map Prod.fst) (v.vtRun us (v.damageVt u.1 u.2 s)) := by
      refine ih (fun done u' rest hus => ?_) (damageVt_shows hfirst hs)
      rw [List.append_assoc]
      exact h (u :: done) u' rest (by rw [hus]; rfl)
    rw [List.append_assoc] at hrest
    exact hrest

theorem upToDate_repaint (v : View) (c : Canvas) (s : ℕ × ℕ → Color) :
    v.UpToDate c (v.presentDamage (some c) v.workRect s) := fun _ hp => repaint_scene hp _ _ _

/-- After any number of calm updates the next one still comes to what a repaint does. -/
theorem damage_vt_agrees (v : View) (c₀ : Canvas) (s : ℕ × ℕ → Color)
    (us : List (Canvas × Option Dirty)) (hs : v.UpToDate c₀ s)
    (hcalm : ∀ done u rest, us = done ++ u :: rest → v.Calm (c₀ :: done.map Prod.fst) u.1 u.2) :
    ∀ done u rest, us = done ++ u :: rest →
      v.TitlesElide ((v.vtClip u.2).intersect v.workRect) ∧
        v.damageVt u.1 u.2 (v.vtRun done s) = v.presentDamage (some u.1) (v.vtClip u.2)
          (v.vtRun done s) := by
  intro done u rest hus
  have hstart : v.Shows [c₀] s := fun p hp => ⟨c₀, List.mem_singleton_self c₀, hs p hp⟩
  have hshow : v.Shows ([c₀] ++ done.map Prod.fst) (v.vtRun done s) := by
    refine vtRun_shows (fun done' u' rest' hdone => ?_) hstart
    refine hcalm done' u' (rest' ++ u :: rest) ?_
    rw [hus, hdone, List.append_assoc]
    rfl
  have hnext := hcalm done u rest hus
  exact ⟨titlesElide_clip hnext.titles _, damageVt_agrees hnext hshow⟩

end Runs

def vtDesk : View := { searchDesk with menus := Menus.init }

def plain (color : Color) : Canvas :=
  ⟨600, 300, Array.replicate (600 * 300) color, Array.size_replicate, by decide⟩

theorem plain_at (x y : ℕ) : (plain 0).at' x y = 0 := by
  have hget : (plain 0).at' x y = (Array.replicate (600 * 300) (0 : Color)).getD (y * 600 + x) 0 :=
    rfl
  rw [hget, Array.getD_eq_getD_getElem?, Array.getElem?_replicate]
  split <;> rfl

theorem vtDesk_fromVt : vtDesk.fromVt = [frameNew .vt 16 8 600 300] := rfl

theorem vtDesk_bare (p : ℕ × ℕ) : ¬ vtDesk.Overlaid p := by
  rintro (h | h | h | h | h | h)
  · exact absurd h.1 (by decide)
  · exact absurd h.1 (by decide)
  · exact h rfl
  · exact absurd h.1 (by decide)
  · exact absurd h.1 (by decide)
  · exact h.1 rfl

theorem vtDesk_meets (clip : Rect) : vtDesk.SepInside clip ∧ vtDesk.Meets clip := by
  refine ⟨fun hopen => absurd hopen (by decide), fun f hf _ => ?_, fun hopen =>
    absurd hopen (by decide)⟩
  obtain rfl := List.mem_singleton.mp hf
  exact shown_of_wide ⟨by decide, by decide, by decide, by decide⟩ (by decide) _ _

theorem vtDesk_titles : vtDesk.TitlesElide vtDesk.workRect := by
  intro f hf _ _ _
  obtain rfl := List.mem_singleton.mp hf
  decide

theorem vtDesk_work : vtDesk.workRect = ⟨0, 0, 1024, 729⟩ := by decide

theorem vtDesk_outline (s : ℕ × ℕ → Color) :
    vtDesk.presentDamage (some (plain 0)) vtDesk.workRect s (16, 100) = Theme.accent := by
  have hwork : vtDesk.workRect.Mem (16, 100) := by decide
  have hplaced : (frameNew .vt 16 8 600 300).Placed := ⟨by decide, by decide, by decide, by decide⟩
  have hshadow : (frameNew .vt 16 8 600 300).shadowRect.Mem (16, 100) := by decide
  have hline : (frameNew .vt 16 8 600 300).outline (16, 100) = 255 := by decide
  have hframes : vtDesk.wm.frames = [] ++ frameNew .vt 16 8 600 300 :: [] := rfl
  have hhide :
      Hides (16, 100) (vtDesk.paintFrameOutline (frameNew .vt 16 8 600 300) true vtDesk.workRect) :=
    paintFrameOutline_hides hplaced (work_has hwork) hwork (by decide) hline true
  have hbody {focused : Bool} (hfocus : focused = true) (s : ℕ × ℕ → Color) :
      vtDesk.paintFrameOutline (frameNew .vt 16 8 600 300) focused vtDesk.workRect s (16, 100) =
        Theme.accent := by
    rw [hfocus, hhide s fun _ => 0, paintFrameOutline_apply hplaced]
    decide
  rw [presentDamage_work hwork, overlays_leaves (vtDesk_bare _), paintFrames_split hframes,
    List.zipIdx_nil, List.zipIdx_nil, each, List.map_nil, draws, window_eq rfl hshadow hwork,
    View.frameBody, draws, draws, draws, draws, draws, draws]
  have hfocus : decide (vtDesk.wm.visibleTop = some ([] : List Frame).length) = true := by decide
  exact hbody hfocus _

/-- The fast path puts the canvas over the outline of its own window. -/
theorem vt_update_drops_outline : ∃ s, vtDesk.UpToDate (plain 0) s ∧
    vtDesk.damageVt (plain 0) none s ≠ vtDesk.presentDamage (some (plain 0))
      (vtDesk.vtClip none) s := by
  refine ⟨vtDesk.presentDamage (some (plain 0)) vtDesk.workRect fun _ => 0, upToDate_repaint vtDesk
    _ _, fun heq => ?_⟩
  have hp : ((vtDesk.vtClip none).intersect vtDesk.workRect).Mem (16, 100) := by decide
  have hbusy :
      ¬ ((frameNew .vt 16 8 600 300).minimized = true ∨
        ((frameNew .vt 16 8 600 300).vtClip none).IsEmpty) := by
    decide
  have hvis :
      ¬ (((frameNew .vt 16 8 600 300).opaqueRect.intersect
        ((frameNew .vt 16 8 600 300).vtClip none)).intersect
          (frameNew .vt 16 8 600 300).clientRect).IsEmpty := by decide
  have hpart :
      (((frameNew .vt 16 8 600 300).opaqueRect.intersect
        ((frameNew .vt 16 8 600 300).vtClip none)).intersect (frameNew .vt 16 8 600
          300).clientRect).Mem (16, 100) ∧ vtDesk.tgt.Has (16, 100) := by decide
  have hfast (s : ℕ × ℕ → Color) : vtDesk.damageVt (plain 0) none s (16, 100) =
      (frameNew .vt 16 8 600 300).drawn (plain 0) (16, 100) (s (16, 100)) := by
    rw [damageVt_alone vtDesk_fromVt hbusy hvis, blitVis_drawn (inside_client _ _), if_pos hpart]
  have hdrawn :
      (frameNew .vt 16 8 600 300).drawn (plain 0) (16, 100) Theme.accent ≠ Theme.accent := by
    rw [Frame.drawn, if_pos (by decide), plain_at]
    decide +kernel
  have hpix := congrFun heq (16, 100)
  rw [hfast, inside_of_meets (vtDesk_meets _).2 _ (fun _ => 0) _ hp, vtDesk_outline] at hpix
  exact hdrawn hpix

theorem vtDesk_calm (past : List Canvas) (color : Color) :
    vtDesk.Calm past (plain color) (some ⟨16, 16, 8, 16⟩) := by
  have hmeets := vtDesk_meets (vtDesk.vtClip (some ⟨16, 16, 8, 16⟩))
  refine ⟨hmeets.1, vtDesk_titles, hmeets.2, fun f above hvt _ p hp _ => .inl ?_⟩
  obtain ⟨rfl, rfl⟩ := List.cons.inj (vtDesk_fromVt.symm.trans hvt)
  have hclip : (frameNew .vt 16 8 600 300).vtClip (some ⟨16, 16, 8, 16⟩) = ⟨32, 56, 40, 72⟩ := by
    decide
  rw [hclip] at hp
  obtain ⟨hx0, hx1, hy0, hy1⟩ := hp
  have hx0 : 32 ≤ p.1 := hx0
  have hx1 : p.1 < 40 := hx1
  have hy0 : 56 ≤ p.2 := hy0
  have hy1 : p.2 < 72 := hy1
  have hox : (frameNew .vt 16 8 600 300).ox = 16 := rfl
  have hoy : (frameNew .vt 16 8 600 300).oy = 8 := rfl
  have hcw : (frameNew .vt 16 8 600 300).cw = 600 := rfl
  have hfh : (frameNew .vt 16 8 600 300).fh = 332 := by decide
  have hcorner : (frameNew .vt 16 8 600 300).corner = 8 := by decide
  have hwin : (frameNew .vt 16 8 600 300).win = ⟨16, 8, 600, 332⟩ := by
    rw [Frame.win, hfh, hox, hoy, hcw]
  have htop : satAdd 8 radius = 16 := by decide
  have hbottom : satAdd 8 332 = 340 := by decide
  have hleft : satAdd 16 radius = 24 := by decide
  have hright : satAdd 16 600 = 616 := by decide
  have hclient : satAdd 8 decoH = 40 := by decide
  refine ⟨?_, ?_, .inl ?_, ?_, fun _ hg => absurd hg List.not_mem_nil, vtDesk_bare p⟩
  · rw [vtDesk_work]
    exact ⟨Nat.zero_le _, show p.1 < 1024 by omega, Nat.zero_le _, show p.2 < 729 by omega⟩
  · rw [hox, hoy, hclient]
    exact ⟨show p.1 < 16 + 600 by omega, show p.2 < 40 + 300 by omega⟩
  · rw [RoundWin.Solid, hwin]
    dsimp only
    rw [htop, hbottom, hleft, hright]
    simp only [radius]
    omega
  · have hrow : 8 ≤ p.2 - 8 ∧ p.2 - 8 + 8 < 332 := by omega
    have hedge : ¬ (p.1 = 16 ∨ p.1 = 616 - 1) := by omega
    rw [Frame.outline, if_neg (by decide), hcorner, hfh, hox, hoy, hcw, strokeCov, hright,
      if_pos hrow, if_neg hedge]

theorem vtDesk_updates_agree :
    vtDesk.damageVt (plain 2) (some ⟨16, 16, 8, 16⟩)
        (vtDesk.vtRun [(plain 1, some ⟨16, 16, 8, 16⟩)] (vtDesk.presentDamage (some (plain 0))
          vtDesk.workRect fun _ => 0)) =
      vtDesk.presentDamage (some (plain 2)) (vtDesk.vtClip (some ⟨16, 16, 8, 16⟩))
        (vtDesk.vtRun [(plain 1, some ⟨16, 16, 8, 16⟩)]
          (vtDesk.presentDamage (some (plain 0)) vtDesk.workRect fun _ => 0)) := by
  refine (damage_vt_agrees vtDesk (plain 0) _
    [(plain 1, some ⟨16, 16, 8, 16⟩), (plain 2, some ⟨16, 16, 8, 16⟩)]
    (upToDate_repaint vtDesk _ _) (fun done u rest hus => ?_) [(plain 1, some ⟨16, 16, 8, 16⟩)]
    (plain 2, _) [] rfl).2
  have hu :
      u ∈ [(plain 1, (some ⟨16, 16, 8, 16⟩ : Option Dirty)), (plain 2, some ⟨16, 16, 8, 16⟩)] := by
    rw [hus]
    simp
  rcases List.mem_cons.mp hu with rfl | hu
  · exact vtDesk_calm _ _
  · rw [List.mem_singleton.mp hu]
    exact vtDesk_calm _ _

end CoeleoOs.Ui
