import CoeleoOs.Ui.Overlay

/-!
# Repainting damage

A repaint fills the part of the clip on the work area with the wallpaper and paints all windows and
popups over it. It should come to the same pixels as a repaint of the whole work area does there,
and to no others.
-/

namespace CoeleoOs.Ui
open CoeleoOs.Lib Pixel

namespace View

variable (v : View) (vt : Option Canvas)

def paintDialog (clip : Rect) : Paint :=
  match v.menus.powerDlg with
  | some kind => v.paintConfirmClip kind clip
  | none => skip

def paintBelow (clip : Rect) : Paint :=
  draws [v.paintFrames vt clip, if v.menus.launcherOpen then v.paintLauncherClip clip else skip]

def paintAbove (clip : Rect) : Paint :=
  draws [v.paintDialog clip,
    if v.menus.deskMenuOpen then v.paintDeskMenuClip clip else skip,
    if v.menus.filesMenuOpen then v.paintFilesMenuClip clip else skip,
    if v.toast = [] then skip else v.paintToastClip clip]

def presentDamage (clip : Rect) : Paint :=
  let clip := clip.intersect v.workRect
  if clip.IsEmpty then skip
  else
    draws [v.fillRectR clip, v.paintBelow vt clip, if v.menus.runnerOpen
      then v.paintKrunnerClip clip else skip, v.paintAbove clip]

/-- A repaint of a clip comes to its end, as one of the work area does, and does what that does
there, over any scene. -/
structure Restricts (clip : Rect) : Prop where
  ends : v.TitlesElide (clip.intersect v.workRect) ∧ v.TitlesElide v.workRect
  outside : ∀ s p, ¬ (clip.intersect v.workRect).Mem p → v.presentDamage vt clip s p = s p
  inside : ∀ s s' p, (clip.intersect v.workRect).Mem p → v.presentDamage vt clip s p =
    v.presentDamage vt v.workRect s' p

/-- The line of the search popup lies in the clip if the popup is painted under it. -/
def SepInside (clip : Rect) : Prop :=
  v.menus.runnerOpen = true → v.krunnerPopup.Intersects (clip.intersect v.workRect) →
    ∀ p, v.KrunnerSep p → (clip.intersect v.workRect).Mem p

/-- No window and no launcher reaches into the clip from a title bar or a box that the clip
misses. -/
structure Meets (clip : Rect) : Prop where
  frames : ∀ f ∈ v.wm.frames, f.minimized = false → f.Shown v.workRect (clip.intersect v.workRect)
  launcher : v.menus.launcherOpen = true → ∀ p, (clip.intersect v.workRect).Mem p → v.FooterAt p →
    v.launcherPopup.Intersects (clip.intersect v.workRect)

end View

section Restriction

variable {v : View} {vt : Option Canvas} {clip : Rect} {good : Rect → Prop}

theorem paintDialog_clipped : Clipped Rect.Mem
    (fun p => v.menus.powerDlg ≠ none ∧ (v.workRect.Mem p ∨ (v.overlayShadow v.confirmPopup).Mem p))
      v.paintDialog := by
  unfold View.paintDialog
  split
  · rename_i kind hk
    exact (paintConfirmClip_clipped kind).mono fun p hp =>
      ⟨by rw [hk]; exact Option.some_ne_none kind, hp⟩
  · exact .skip

theorem paintBelow_keeps : Keeps Rect.Mem All (v.paintBelow vt) :=
  .cons paintFrames_keeps (.cons (.ite (paintLauncherClip_keeps.mono fun _ _ => trivial) .nil) .nil)

theorem paintAbove_keeps : Keeps Rect.Mem All v.paintAbove :=
  .cons (paintDialog_clipped.keeps.mono fun _ _ => trivial)
    (.cons (.ite (paintDeskMenuClip_keeps.mono fun _ _ => trivial) .nil)
      (.cons (.ite (paintFilesMenuClip_keeps.mono fun _ _ => trivial) .nil)
        (.cons (.ite .nil (paintToastClip_clipped.keeps.mono fun _ _ => trivial)) .nil)))

theorem presentDamage_beyond {p : ℕ × ℕ} (hp : ¬ (clip.intersect v.workRect).Mem p)
    (s : ℕ × ℕ → Color) : v.presentDamage vt clip s p = if v.menus.runnerOpen = true ∧
    v.krunnerPopup.Intersects (clip.intersect v.workRect) ∧ v.KrunnerSep p then Theme.border
      else s p := by
  have hkeep {P : Rect → Paint} (h : Keeps Rect.Mem All P) (s : ℕ × ℕ → Color) :
      P (clip.intersect v.workRect) s p = s p :=
    h _ s p fun hin => hp hin.1
  have hfill (s : ℕ × ℕ → Color) : v.fillRectR (clip.intersect v.workRect) s p = s p := by
    rw [fillRectR_apply, if_neg fun h => hp (Rect.mem_intersect.mp h).1]
  rw [View.presentDamage]
  by_cases hempty : (clip.intersect v.workRect).IsEmpty
  · rw [if_pos hempty, if_neg, skip_apply]
    rintro ⟨-, hmeet, -⟩
    obtain ⟨x, y, -, hc⟩ := Rect.intersects_iff.mp hmeet
    exact Rect.not_isEmpty_of_mem (p := (x, y)) hc hempty
  rw [if_neg hempty, draws, draws, draws, draws, draws, hkeep paintAbove_keeps]
  by_cases hopen : v.menus.runnerOpen = true
  · rw [if_pos hopen, paintKrunnerClip_beyond hp, hkeep paintBelow_keeps, hfill]
    by_cases hsep : v.krunnerPopup.Intersects (clip.intersect v.workRect) ∧ v.KrunnerSep p
    · rw [if_pos hsep, if_pos ⟨hopen, hsep⟩]
    · rw [if_neg hsep, if_neg fun h => hsep h.2]
  · rw [if_neg hopen, skip_apply, hkeep paintBelow_keeps, hfill, if_neg fun h => hopen h.1]

theorem outside_iff :
    (∀ s p, ¬ (clip.intersect v.workRect).Mem p → v.presentDamage vt clip s p = s p) ↔
    v.SepInside clip := by
  constructor
  · intro h hopen hmeet p hsep
    by_contra hp
    have hborder := h (fun _ => 0) p hp
    rw [presentDamage_beyond hp, if_pos ⟨hopen, hmeet, hsep⟩] at hborder
    exact absurd hborder (by decide)
  · intro h s p hp
    rw [presentDamage_beyond hp, if_neg fun hsep => hp (h hsep.1 hsep.2.1 p hsep.2.2)]

theorem paintAbove_reads : Reads (Rect.Among good) v.paintAbove :=
  .cons (paintDialog_clipped.reads.sub fun _ _ h => h.1)
    (.cons (.ite paintDeskMenuClip_reads .nil) (.cons (.ite paintFilesMenuClip_reads .nil)
      (.cons (.ite .nil (paintToastClip_clipped.reads.sub fun _ _ h => h.1)) .nil)))

theorem launcher_meets (v : View) : v.launcherPopup.Intersects v.workRect := by
  have hw := v.wide
  have htall := v.tall
  have hwork := hWork_bounds v
  have hslot : v.slotX0 ≤ 11 := by
    rw [View.slotX0]
    cases v.mode with
    | float => exact Nat.le_refl 11
    | full => exact (by decide : 0 + 4 ≤ 11)
  have hheight :
      1 ≤ satAdd (satAdd (satAdd (pad * 2) (satMul v.menus.launchList.length v.row)) launchSep)
      (satMul powerFooter v.row) := by
    have hsep : 1 ≤ satAdd (satAdd (pad * 2) (satMul v.menus.launchList.length v.row)) launchSep :=
      le_satAdd_right (by decide)
    rw [satAdd]
    omega
  refine Rect.intersects_iff.mpr ⟨v.slotX0, v.hWork - 9, ⟨Nat.le_refl _, ?_, ?_, ?_⟩, Nat.zero_le _,
    ?_, Nat.zero_le _, ?_⟩
  · show v.slotX0 < min (satAdd v.slotX0 196) v.scr.w
    rw [satAdd_eq (by omega)]
    omega
  · show v.hWork - 8 - satAdd (satAdd (satAdd (pad * 2) (satMul v.menus.launchList.length v.row))
        launchSep) (satMul powerFooter v.row) ≤ v.hWork - 9
    omega
  · show v.hWork - 9 < v.hWork - 8
    omega
  · show v.slotX0 < v.scr.w
    omega
  · show v.hWork - 9 < v.hWork
    omega

theorem paintBelow_reads (hin : ∀ c, good c → ∀ p, c.Mem p → v.workRect.Mem p)
    (hframes : ∀ c, good c → ∀ f ∈ v.wm.frames, f.minimized = false → f.Shown v.workRect c)
    (hlauncher : v.menus.launcherOpen = true → ∀ c p, good c → c.Mem p → v.FooterAt p →
      v.launcherPopup.Intersects c) : Reads (Rect.Among good) (v.paintBelow vt) := by
  refine .cons (paintFrames_reads hin hframes) (.cons ?_ .nil)
  by_cases hopen : v.menus.launcherOpen = true
  · simp only [if_pos hopen]
    exact paintLauncherClip_reads (hlauncher hopen)
  · simp only [if_neg hopen]
    exact .nil

theorem inside_of_meets (h : v.Meets clip) (s s' : ℕ × ℕ → Color) (p : ℕ × ℕ)
    (hp : (clip.intersect v.workRect).Mem p) :
    v.presentDamage vt clip s p = v.presentDamage vt v.workRect s' p := by
  have hself : v.workRect.intersect v.workRect = v.workRect := by simp [Rect.intersect]
  have hwork : v.workRect.Mem p := (Rect.mem_intersect.mp hp).2
  let good : Rect → Prop := fun c => c = clip.intersect v.workRect ∨ c = v.workRect
  have hin : ∀ c, good c → ∀ p, c.Mem p → v.workRect.Mem p := by
    rintro c (rfl | rfl) p hc
    · exact (Rect.mem_intersect.mp hc).2
    · exact hc
  have hframes : ∀ c, good c → ∀ f ∈ v.wm.frames, f.minimized = false → f.Shown v.workRect c := by
    rintro c (rfl | rfl) f hf hvis
    · exact h.frames f hf hvis
    · exact ⟨fun hmeet _ _ _ => hmeet, fun hmeet _ _ _ => hmeet⟩
  have hlauncher : v.menus.launcherOpen = true → ∀ c p, good c → c.Mem p → v.FooterAt p →
      v.launcherPopup.Intersects c := by
    rintro hopen c p (rfl | rfl) hc hfoot
    · exact h.launcher hopen p hc hfoot
    · exact launcher_meets v
  have hrest : Reads (Rect.Among good) fun c =>
      draws [v.paintBelow vt c, if v.menus.runnerOpen then v.paintKrunnerClip c
        else skip, v.paintAbove c] :=
    .cons (paintBelow_reads hin hframes hlauncher) (.cons (.ite paintKrunnerClip_reads .nil)
      (.cons paintAbove_reads .nil))
  have hbase : v.fillRectR (clip.intersect v.workRect) s p = v.fillRectR v.workRect s' p := by
    rw [fillRectR_apply, fillRectR_apply, if_pos (Rect.mem_intersect.mpr ⟨hp, hwork⟩),
      if_pos (Rect.mem_intersect.mpr ⟨hwork, hwork⟩)]
  rw [View.presentDamage, View.presentDamage, hself, if_neg (Rect.not_isEmpty_of_mem hp),
    if_neg (Rect.not_isEmpty_of_mem hwork)]
  exact hrest _ _ _ _ p ⟨hp, .inl rfl⟩ ⟨hwork, .inr rfl⟩ hbase

theorem titlesElide_clip (h : v.TitlesElide v.workRect) (clip : Rect) :
    v.TitlesElide (clip.intersect v.workRect) := by
  have hmeet {r : Rect} (hr : r.Intersects (clip.intersect v.workRect)) :
      r.Intersects v.workRect := by
    obtain ⟨x, y, hx, hy⟩ := Rect.intersects_iff.mp hr
    exact Rect.intersects_iff.mpr ⟨x, y, hx,
      (Rect.mem_intersect.mp (show Rect.Mem _ (x, y) from hy)).2⟩
  exact fun f hf hmin hshadow hdeco => h f hf hmin (hmeet hshadow) (hmeet hdeco)

/-- What a repaint does beyond its clip comes from the line of the search popup alone. -/
theorem present_damage_restricts (v : View) (vt : Option Canvas) (clip : Rect) :
    (v.Restricts vt clip → v.SepInside clip ∧ v.TitlesElide v.workRect) ∧
      (v.SepInside clip → v.TitlesElide v.workRect → v.Meets clip → v.Restricts vt clip) :=
  ⟨fun h => ⟨outside_iff.mp h.outside, h.ends.2⟩, fun hsep htitles hmeets =>
    ⟨⟨titlesElide_clip htitles clip, htitles⟩, outside_iff.mpr hsep, inside_of_meets hmeets⟩⟩

theorem icon_mem_deco {f : Frame} (hf : f.Placed) (hwide : 72 ≤ f.cw) {p : ℕ × ℕ}
    (hp : f.IconAt p) : f.decoRect.Mem p := by
  obtain ⟨hx, hy, hw, hh⟩ := id hf
  rw [hf.mem_deco]
  rcases hp with hp | ⟨i, hi, hp⟩
  · have hp : satAdd f.ox 8 ≤ p.1 ∧ p.1 < satAdd f.ox 8 + 16 ∧ satAdd f.oy 8 ≤ p.2 ∧
        p.2 < satAdd f.oy 8 + 16 := hp
    rw [satAdd_eq (by omega), satAdd_eq (by omega)] at hp
    omega
  · have hp :
        satAdd f.ox f.cw - 24 * (3 - i) + 4 ≤ p.1 ∧ p.1 < satAdd f.ox f.cw - 24 * (3 - i) + 4 + 16 ∧
        satAdd f.oy 4 + 4 ≤ p.2 ∧ p.2 < satAdd f.oy 4 + 4 + 16 := hp
    rw [satAdd_eq (by omega), satAdd_eq (by omega)] at hp
    omega

theorem band_mem_shadow {f : Frame} (hf : f.Placed) (hwide : 72 ≤ f.cw) {p : ℕ × ℕ}
    (hp : ∃ band ∈ f.bands, band.Mem p) : f.shadowRect.Mem p := by
  obtain ⟨hx, hy, hw, hh⟩ := id hf
  have hx1 : satAdd f.ox f.cw = f.ox + f.cw := satAdd_eq (by omega)
  have hy1 : satAdd (satAdd f.oy decoH) f.ch = f.oy + 32 + f.ch := by
    rw [satAdd_eq (a := f.oy) (show f.oy + 32 < 2 ^ 32 by omega)]
    exact satAdd_eq (show f.oy + 32 + f.ch < 2 ^ 32 by omega)
  have hcx : satAdd f.ox radius = f.ox + 8 := satAdd_eq (show f.ox + 8 < 2 ^ 32 by omega)
  have hcy : satAdd f.oy radius = f.oy + 8 := satAdd_eq (show f.oy + 8 < 2 ^ 32 by omega)
  obtain ⟨band, hband, hp⟩ := hp
  have hsx : f.shadowRect.x0 = f.ox - 6 ∧ f.shadowRect.x1 = f.ox + f.cw + 8 := by
    refine ⟨rfl, ?_⟩
    show satAdd (satAdd f.ox f.cw) 8 = _
    rw [hx1, satAdd_eq (by omega)]
  have hsy : f.shadowRect.y0 = f.oy - 6 ∧ f.shadowRect.y1 = f.oy + f.ch + 40 := by
    refine ⟨rfl, ?_⟩
    show satAdd (satAdd f.oy (satAdd 32 f.ch)) 8 = _
    rw [satAdd_eq (a := 32) (by omega), satAdd_eq (a := f.oy) (by omega), satAdd_eq (by omega)]
    omega
  rw [hf.mem_shadow]
  simp only [Frame.bands, shadowBands, Frame.opaqueRect, hx1, hy1, hcx, hcy, hsx, hsy,
    List.mem_cons, List.not_mem_nil, or_false] at hband
  rcases hband with rfl | rfl | rfl | rfl | rfl | rfl | rfl | rfl <;>
    · simp only [Rect.Mem, Rect.Contains, radius] at hp
      omega

theorem shown_of_wide {f : Frame} (hf : f.Placed) (hwide : 72 ≤ f.cw) (work clip : Rect) :
    f.Shown work clip := by
  refine ⟨fun _ p hc hp => Rect.intersects_iff.mpr ⟨_, _, icon_mem_deco hf hwide hp, hc⟩,
    fun _ p hc hp => ?_⟩
  refine Rect.intersects_iff.mpr ⟨p.1, p.2, ?_, hc⟩
  rcases hp with hp | hp
  · have hdeco := icon_mem_deco hf hwide hp
    rw [hf.mem_deco] at hdeco
    exact (hf.mem_shadow p).mpr (by omega)
  · exact band_mem_shadow hf hwide hp

end Restriction

def searchDesk : View where
  scr := ⟨1024, 768, 16, some (600, 300)⟩
  font := ⟨8, 16, fun _ => 8, fun _ _ _ => 255, by decide⟩
  mode := .float
  wm := { Wm.init with frames := [frameNew .vt 16 8 600 300] }
  menus := { Menus.init with runnerOpen := true }
  cx := 512
  cy := 384
  wallpaper := ⟨0, 0, #[], rfl, by decide⟩
  clients := []
  filesTitle := []
  files := fun _ _ => []
  settings := fun _ _ => []
  runnerCaret := true
  deskMenuX := 0
  deskMenuY := 0
  filesMenuX := 0
  filesMenuY := 0
  menuFlags := ⟨false, false, false⟩
  toast := []
  wide := by decide
  tall := by decide
  w_lt := by decide
  h_lt := by decide
  placed := fun f hf => by
    obtain rfl := List.mem_singleton.mp hf
    exact ⟨by decide, by decide, by decide, by decide⟩
  single := by decide

theorem searchDesk_popup : searchDesk.krunnerPopup = ⟨272, 182, 752, 270⟩ := by decide

/-- Its line is drawn again below a clip that ends above it. -/
theorem search_line_leaves_clip : ¬ searchDesk.Restricts none ⟨300, 190, 400, 210⟩ := by
  intro h
  have hsep := outside_iff.mp h.outside rfl (by decide) (280, 246) (by decide)
  exact absurd hsep (by decide)

theorem search_repaint_restricts : searchDesk.Restricts none ⟨200, 100, 800, 400⟩ := by
  have hsep : searchDesk.SepInside ⟨200, 100, 800, 400⟩ := by
    rintro - - p hp
    have hline : p.2 = 246 ∧ 280 ≤ p.1 ∧ p.1 < 744 := by
      obtain ⟨hy, hx0, hx1, -⟩ := hp
      rw [searchDesk_popup] at hy hx0 hx1
      exact ⟨hy, hx0, hx1⟩
    clear hp
    have hwork : searchDesk.workRect = ⟨0, 0, 1024, 729⟩ := by decide
    rw [Rect.mem_intersect, hwork]
    simp only [Rect.Mem, Rect.Contains]
    omega
  have hclosed : searchDesk.menus.launcherOpen = false := rfl
  have hmeets : searchDesk.Meets ⟨200, 100, 800, 400⟩ := by
    refine ⟨fun f hf _ => ?_, fun hopen => absurd (hclosed.symm.trans hopen) Bool.false_ne_true⟩
    obtain rfl := List.mem_singleton.mp hf
    exact shown_of_wide ⟨by decide, by decide, by decide, by decide⟩ (by decide) _ _
  have htitles : searchDesk.TitlesElide searchDesk.workRect := by
    intro f hf _ _ _
    obtain rfl := List.mem_singleton.mp hf
    decide
  exact (present_damage_restricts searchDesk none ⟨200, 100, 800, 400⟩).2 hsep htitles hmeets

end CoeleoOs.Ui
