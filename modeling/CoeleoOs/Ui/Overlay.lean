import CoeleoOs.Ui.Deco

/-!
# Painting the popups

The launcher, the menus, the dialog that turns the computer off, the search popup and the toast are
painted above all windows. A popup is a ring of shadow with a body, and each is left out where it
has no pixel of the clip.
-/

namespace CoeleoOs.Ui
open CoeleoOs.Lib Pixel Text
open CoeleoOs.Task (Bytes)

abbrev panelInset : ℕ := 4
abbrev launchW : ℕ := 196
abbrev launchSep : ℕ := 1
abbrev powerFooter : ℕ := 2
abbrev confirmW : ℕ := 288
abbrev buttonH : ℕ := 24
abbrev deskMenuW : ℕ := 180
abbrev filesMenuW : ℕ := 160
abbrev filesMenuN : ℕ := 3
abbrev runnerW : ℕ := 480

def satMul (a b : ℕ) : ℕ := min (a * b) (2 ^ 32 - 1)

def chars (b : Bytes) : List Char := (fromUtf8 b).getD []

def appLabel (name : Bytes) : Bytes :=
  if name = appName "settings" then appName "Settings" else label name

def appIcon (name : Bytes) : Icon :=
  if name = appName "files" then .folder else if name = appName "sh" then .terminal else .app

def popup (px : ℕ → ℕ → Paint) (op sh : Rect) (body : Rect → Paint) (clip : Rect) : Paint :=
  if ¬ sh.Intersects clip then skip
  else
    draws [shadeRing (shadowBands op sh) px (sh.intersect clip),
      if (op.intersect clip).IsEmpty then skip else body clip]

namespace View

variable (v : View)

def row : ℕ := v.font.h + gap

def overlayShadow (op : Rect) : Rect :=
  ⟨op.x0 - (shadowPx - shadowOff), op.y0 - (shadowPx - shadowOff),
    min (satAdd op.x1 shadowPx) v.scr.w, min (satAdd op.y1 shadowPx) v.hWork⟩

def menuPopup (x y w h : ℕ) : Rect :=
  let x0 := if v.scr.w < satAdd x w then v.scr.w - w else x
  let y0 := if v.hWork < satAdd y h then v.hWork - h else y
  ⟨x0, y0, satAdd x0 w, satAdd y0 h⟩

section Launcher

def slotX0 : ℕ := (match v.mode with | .float => panelMargin | .full => 0) + panelInset

def launcherPopup : Rect :=
  let h :=
    satAdd (satAdd (satAdd (pad * 2) (satMul v.menus.launchList.length v.row)) launchSep)
      (satMul powerFooter v.row)
  ⟨v.slotX0, v.hWork - gap - h, min (satAdd v.slotX0 launchW) v.scr.w, v.hWork - gap⟩

def footerY (f : ℕ) : ℕ :=
  satAdd (satAdd (satAdd (satAdd v.launcherPopup.y0 pad) (satMul v.menus.launchList.length v.row))
    launchSep) (f * v.row)

def paintFooter (f : ℕ) (clip : Rect) : Paint :=
  let op := v.launcherPopup
  let vis := op.intersect clip
  let x := satAdd op.x0 pad
  draws [if v.menus.launchSel = v.menus.launchList.length + f then
      if f = 1 then dangerFill v.tgt x (v.footerY f) (op.x1 - op.x0 - pad * 2) v.row vis
      else highlightFill v.tgt x (v.footerY f) (op.x1 - op.x0 - pad * 2) v.row vis
    else skip,
    text v.font v.tgt x (satAdd (v.footerY f) (gap / 2)) (if f = 1 then "Power off".toList
      else "Restart".toList) (if f = 1 then Theme.danger else Theme.text) op.x1 clip]

def launcherBody (clip : Rect) : Paint :=
  let op := v.launcherPopup
  let vis := op.intersect clip
  let ty0 := satAdd op.y0 pad
  draws [fillRound v.tgt op.x0 op.y0 (op.x1 - op.x0) (op.y1 - op.y0) radius Theme.surface vis,
    each v.menus.launchList.zipIdx fun ni =>
      listRow v.font v.tgt (satAdd op.x0 pad) (satAdd ty0 (ni.2 * v.row)) (op.x1 - op.x0 - pad * 2)
        v.row (chars (appLabel ni.1)) (some (appIcon ni.1)) (ni.2 = v.menus.launchSel) false vis,
    separator v.tgt (satAdd op.x0 pad) (op.x1 - pad)
      (satAdd ty0 (satMul v.menus.launchList.length v.row)) Theme.dim vis,
    range 0 powerFooter fun f => v.paintFooter f clip]

def paintLauncherClip (clip : Rect) : Paint :=
  popup (shadePx v.tgt v.launcherPopup) v.launcherPopup (v.overlayShadow v.launcherPopup)
    v.launcherBody clip

end Launcher

section Menus

def deskMenuPopup : Rect :=
  v.menuPopup v.deskMenuX v.deskMenuY (min deskMenuW v.scr.w) (satAdd (pad * 2) v.row)

def deskMenuBody (clip : Rect) : Paint :=
  let op := v.deskMenuPopup
  let vis := op.intersect clip
  draws [fillRound v.tgt op.x0 op.y0 (op.x1 - op.x0) (op.y1 - op.y0) radius Theme.surface vis,
    listRow v.font v.tgt (satAdd op.x0 pad) (satAdd op.y0 pad) (op.x1 - op.x0 - pad * 2) v.row
      "Desktop settings".toList (some .app) true false vis]

def paintDeskMenuClip (clip : Rect) : Paint :=
  popup (shadePx v.tgt v.deskMenuPopup) v.deskMenuPopup (v.overlayShadow v.deskMenuPopup)
    v.deskMenuBody clip

def filesMenuPopup : Rect :=
  v.menuPopup v.filesMenuX v.filesMenuY (min filesMenuW v.scr.w)
    (satAdd (pad * 2) (satMul v.row filesMenuN))

def filesMenuRows : List (String × Bool × Color) :=
  [("Open", v.menuFlags.canOpen, Theme.text), ("Go up", v.menuFlags.canUp, Theme.text),
    ("Delete", v.menuFlags.canDelete, Theme.danger)]

def filesMenuBody (clip : Rect) : Paint :=
  let op := v.filesMenuPopup
  let vis := op.intersect clip
  draws [fillRound v.tgt op.x0 op.y0 (op.x1 - op.x0) (op.y1 - op.y0) radius Theme.surface vis,
    each v.filesMenuRows.zipIdx fun ri =>
      let y := satAdd (satAdd op.y0 pad) (ri.2 * v.row)
      let hovered : Bool := op.x0 ≤ v.mx ∧ v.mx < op.x1 ∧ y ≤ v.my ∧ v.my < satAdd y v.row
      listRowFg v.font v.tgt (satAdd op.x0 pad) y (op.x1 - op.x0 - pad * 2) v.row ri.1.1.toList none
        (hovered && ri.1.2.1) false (if ri.1.2.1 then ri.1.2.2 else Theme.dim) vis]

def paintFilesMenuClip (clip : Rect) : Paint :=
  popup (shadePx v.tgt v.filesMenuPopup) v.filesMenuPopup (v.overlayShadow v.filesMenuPopup)
    v.filesMenuBody clip

end Menus

section Krunner

def hintH : ℕ := v.font.h + pad

def krunnerPopup : Rect :=
  let w := max (min runnerW (v.scr.w - 16)) 1
  let h :=
    satAdd (satAdd (satAdd (pad * 2) v.row) (satMul (max v.menus.runnerList.length 1) v.row))
      v.hintH
  let x0 := (v.scr.w - w) / 2
  let y0 := v.hWork / 4
  ⟨x0, y0, min (satAdd x0 w) v.scr.w, min (satAdd y0 h) v.hWork⟩

def krunnerHit : KrunnerHit :=
  let pop := v.krunnerPopup
  let q1 := satAdd (satAdd pop.y0 pad) v.row
  if ¬ pop.Contains v.mx v.my then .outside
  else if v.my < q1 ∨ pop.y1 - v.hintH ≤ v.my then .query
  else if (v.my - q1) / v.row < v.menus.runnerList.length then .row ((v.my - q1) / v.row)
  else .query

def krunnerRow (i : ℕ) : Bool :=
  match v.krunnerHit with
  | .row j => i = j
  | _ => false

def shadeKrunnerPx (pop : Rect) (x y : ℕ) : Paint :=
  let d := pop.sdf x y
  if d = 0 ∨ shadowPx < d then skip else touch v.tgt x y fun dst =>
    blend dst Theme.shadow (shadowA (min d 7))

def krunnerSep : Paint :=
  let pop := v.krunnerPopup
  fillSpan v.tgt (satAdd pop.x0 pad) (pop.y1 - v.hintH) (pop.x1 - pop.x0 - pad * 2) Theme.border

def krunnerHint (clip : Rect) : Paint :=
  let pop := v.krunnerPopup
  text v.font v.tgt (satAdd pop.x0 pad) (satAdd (pop.y1 - v.hintH) (pad / 2 + 1))
    "Esc to close  •  Enter to launch".toList Theme.dim pop.x1 (pop.intersect clip)

def krunnerList (clip : Rect) : Paint :=
  let pop := v.krunnerPopup
  let vis := pop.intersect clip
  let qy := satAdd pop.y0 pad
  let ry0 := satAdd qy v.row
  draws [fillStrokeRound v.tgt pop.x0 pop.y0 (pop.x1 - pop.x0) (pop.y1 - pop.y0) radius
    Theme.surfaceRaised Theme.borderLight vis, queryField v.font v.tgt (satAdd pop.x0 pad) qy
      (pop.x1 - pop.x0 - pad * 2) v.row (chars v.menus.runnerQuery) "Search...".toList
        v.runnerCaret true vis, if v.menus.runnerList = [] then
      text v.font v.tgt (satAdd pop.x0 pad) (satAdd ry0 (pad / 2)) "No matches".toList
        Theme.dim pop.x1 vis
    else
      each v.menus.runnerList.zipIdx fun ni =>
        listRowBadge v.font v.tgt (satAdd pop.x0 pad) (satAdd ry0 (ni.2 * v.row))
          (pop.x1 - pop.x0 - pad * 2) v.row (chars (label ni.1))
          (if ni.1 = appName "sh" then "Cmd".toList else "App".toList) (appIcon ni.1)
          (ni.2 = v.menus.runnerSel) (v.krunnerRow ni.2 && ni.2 ≠ v.menus.runnerSel) vis]

def krunnerBody (clip : Rect) : Paint :=
  draws [v.krunnerList clip, v.krunnerSep, v.krunnerHint clip]

def paintKrunnerClip (clip : Rect) : Paint :=
  popup (v.shadeKrunnerPx v.krunnerPopup) v.krunnerPopup (v.overlayShadow v.krunnerPopup)
    v.krunnerBody clip

end Krunner

section Confirm

def confirmPopup : Rect :=
  let h := satAdd (satAdd (satAdd (pad * 2) v.font.h) gap) buttonH
  let w := min confirmW (v.scr.w - panelMargin * 2)
  let x0 := (v.scr.w - w) / 2
  let y0 := (v.hWork - h) / 2
  ⟨x0, y0, satAdd x0 w, satAdd y0 h⟩

def confirmBtns : Rect × Rect :=
  let p := v.confirmPopup
  let by' := p.y1 - (pad + buttonH)
  let bw := (p.x1 - p.x0 - pad * 3) / 2
  let cancel : Rect := ⟨satAdd p.x0 pad, by', satAdd (satAdd p.x0 pad) bw, satAdd by' buttonH⟩
  (cancel, ⟨satAdd cancel.x1 pad, by', p.x1 - pad, satAdd by' buttonH⟩)

def paintBtn (r : Rect) (label : String) (focused danger : Bool) (clip : Rect) : Paint :=
  let vis := v.confirmPopup.intersect clip
  let bw := r.x1 - r.x0
  let bh := r.y1 - r.y0
  draws [if focused then highlightFill v.tgt r.x0 r.y0 bw bh vis
    else if r.Contains v.mx v.my then
      if danger then dangerFill v.tgt r.x0 r.y0 bw bh vis else hoverFill v.tgt r.x0 r.y0 bw bh vis
    else fillStrokeRound v.tgt r.x0 r.y0 bw bh radiusSm Theme.surface Theme.border vis,
    text v.font v.tgt (satAdd r.x0 (pad / 2)) (satAdd r.y0 ((bh - v.font.h) / 2)) label.toList
      (if danger then Theme.danger else Theme.text) r.x1 clip]

def confirmBody (kind : PowerKind) (clip : Rect) : Paint :=
  let op := v.confirmPopup
  draws [fillStrokeRound v.tgt op.x0 op.y0 (op.x1 - op.x0) (op.y1 - op.y0) radius
      Theme.surfaceRaised Theme.borderLight (op.intersect clip),
    text v.font v.tgt (satAdd op.x0 pad) (satAdd op.y0 pad)
      (match kind with
        | .reboot => "Restart the computer?".toList
        | .powerOff => "Turn off the computer?".toList)
      Theme.text op.x1 clip,
    v.paintBtn v.confirmBtns.1 "Cancel" (!v.menus.powerOk) false clip,
    v.paintBtn v.confirmBtns.2 (match kind with | .reboot => "Restart" | .powerOff => "Power off")
      v.menus.powerOk true clip]

def paintScrim (clip : Rect) : Paint :=
  let vis := v.workRect.intersect clip
  if vis.IsEmpty then skip else scrim v.tgt vis.x0 vis.y0 (vis.x1 - vis.x0) (vis.y1 - vis.y0) vis

def paintConfirmClip (kind : PowerKind) (clip : Rect) : Paint :=
  let op := v.confirmPopup
  let sh := v.overlayShadow op
  if ¬ v.workRect.Intersects clip ∧ ¬ sh.Intersects clip then skip
  else
    draws [v.paintScrim clip,
      shadeRing (shadowBands op sh) (shadePx v.tgt op) (sh.intersect clip),
      if (op.intersect clip).IsEmpty then skip else v.confirmBody kind clip]

end Confirm

section Toast

def toastRect : Rect :=
  let pw := satAdd (v.font.textWidth v.toast) 32
  let px := (v.scr.w - pw) / 2
  let py := v.hWork - 40
  ⟨px, py, px + pw, py + 32⟩

def paintToastClip (clip : Rect) : Paint :=
  let r := v.toastRect
  let vis := r.intersect clip
  if ¬ r.Intersects clip then skip
  else
    draws [fillStrokeRound v.tgt r.x0 r.y0 (r.x1 - r.x0) 32 radius Theme.surfaceRaised
      Theme.borderLight vis, text v.font v.tgt (r.x0 + 16) (r.y0 + (32 - v.font.h) / 2) v.toast
        Theme.text vis.x1 vis]

end Toast

end View

section Clips

variable {v : View} {good : Rect → Prop} {op sh : Rect} {R : ℕ × ℕ → Prop} {px : ℕ → ℕ → Paint}
    {body : Rect → Paint}

theorem ring_clipped {g : ℕ × ℕ → Color → Color} {N : ℕ × ℕ → Prop}
    (hpx : ∀ x y s p, px x y s p = if p = (x, y) ∧ v.tgt.Has p then g p (s p) else s p)
    (hg : ∀ p c, ¬ N p → g p c = c) (bands : List Rect) :
    Clipped Rect.Mem (fun p => sh.Mem p ∧ N p) fun clip =>
      shadeRing bands px (sh.intersect clip) := by
  have hring :
      Clipped Rect.Mem (fun p => (∃ band ∈ bands, band.Mem p) ∧ N p) (shadeRing bands px) :=
    shadeRing_clipped hpx hg
  have hvia := hring.via (φ := fun clip => sh.intersect clip) (mem_cut sh)
  exact hvia.mono fun p hp => ⟨hp.1, hp.2.2⟩

theorem popup_keeps {g : ℕ × ℕ → Color → Color} {N : ℕ × ℕ → Prop}
    (hpx : ∀ x y s p, px x y s p = if p = (x, y) ∧ v.tgt.Has p then g p (s p) else s p)
    (hg : ∀ p c, ¬ N p → g p c = c) (hbody : Keeps Rect.Mem R body) :
    Keeps Rect.Mem (fun p => sh.Mem p ∧ N p ∨ R p) (popup px op sh body) :=
  .ite .nil (.cons ((ring_clipped hpx hg _).keeps.mono fun _ => .inl)
    (.cons (.ite .nil (hbody.mono fun _ => .inr)) .nil))

theorem popup_outside {g : ℕ × ℕ → Color → Color} {N : ℕ × ℕ → Prop}
    (hpx : ∀ x y s p, px x y s p = if p = (x, y) ∧ v.tgt.Has p then g p (s p) else s p)
    (hg : ∀ p c, ¬ N p → g p c = c) {p : ℕ × ℕ} (hp : ¬ (sh.Mem p ∧ N p)) {clip : Rect}
    (hkeep : ∀ s, body clip s p = s p) (s : ℕ × ℕ → Color) :
    popup px op sh body clip s p = s p := by
  rw [popup]
  split
  · rfl
  · rw [draws, draws, draws]
    split
    · exact (ring_clipped hpx hg _).keeps.outside clip s p hp
    · rw [hkeep]
      exact (ring_clipped hpx hg _).keeps.outside clip s p hp

theorem popup_reads {g : ℕ × ℕ → Color → Color}
    (hpx : ∀ x y s p, px x y s p = if p = (x, y) ∧ v.tgt.Has p then g p (s p) else s p)
    (hkeep : ∀ clip s p, ¬ R p → body clip s p = s p) (hbody : Reads (Rect.Among good) body)
    (hR : ∀ clip p, good clip → clip.Mem p → R p → op.Intersects clip)
    (hop : ∀ p, op.Mem p → sh.Mem p) : Reads (Rect.Among good) (popup px op sh body) := by
  have hring : Clipped Rect.Mem (fun p => sh.Mem p ∧ All p) fun clip =>
      shadeRing (shadowBands op sh) px (sh.intersect clip) :=
    ring_clipped hpx (fun _ _ h => absurd trivial h) _
  have hinner : Reads (Rect.Among good) fun clip => if (op.intersect clip).IsEmpty then skip
      else body clip :=
    .guarded (fun clip p hp hr => hR clip p hp.2 hp.1 hr) hkeep hbody
  refine .guarded (R := fun p => sh.Mem p ∨ R p) ?_ ?_ (.cons (hring.reads.sub fun _ _ h => h.1)
    (.cons hinner .nil))
  · rintro clip p ⟨hc, hgood⟩ (hsh | hr) hskip
    · exact hskip (Rect.intersects_iff.mpr ⟨_, _, hsh, hc⟩)
    · obtain ⟨x, y, hin, hclip⟩ := Rect.intersects_iff.mp (hR clip p hgood hc hr)
      exact hskip (Rect.intersects_iff.mpr ⟨x, y, hop (x, y) hin, hclip⟩)
  · intro clip s p hp
    rw [draws, draws, draws]
    split
    · exact hring.keeps.outside clip s p fun h => hp (.inl h.1)
    · rw [hkeep _ _ _ fun h => hp (.inr h)]
      exact hring.keeps.outside clip s p fun h => hp (.inl h.1)

def View.Beside (v : View) (op : Rect) (p : ℕ × ℕ) : Prop :=
  (v.overlayShadow op).Mem p ∧ op.Near p ∨ op.Mem p

instance (v : View) (op : Rect) (p : ℕ × ℕ) : Decidable (v.Beside op p) :=
  inferInstanceAs (Decidable (_ ∨ _))

theorem mem_overlayShadow (hx : op.x1 ≤ v.scr.w) (hy : op.y1 ≤ v.hWork) (p : ℕ × ℕ)
    (hp : op.Mem p) : (v.overlayShadow op).Mem p := by
  obtain ⟨h1, h2, h3, h4⟩ := hp
  have hw := v.w_lt
  have hh := v.h_lt
  have hwork := (hWork_bounds v).1
  have hmem : op.x0 - 6 ≤ p.1 ∧ p.1 < min (satAdd op.x1 8) v.scr.w ∧ op.y0 - 6 ≤ p.2 ∧
      p.2 < min (satAdd op.y1 8) v.hWork := by
    rw [satAdd_eq (by omega), satAdd_eq (by omega)]
    omega
  exact hmem

theorem menuPopup_inside {x y w h : ℕ} (hw : w ≤ v.scr.w) (hh : h ≤ v.hWork) :
    (v.menuPopup x y w h).x1 ≤ v.scr.w ∧ (v.menuPopup x y w h).y1 ≤ v.hWork := by
  have := v.w_lt
  have := v.h_lt
  have := (hWork_bounds v).1
  constructor
  · show satAdd (if v.scr.w < satAdd x w then v.scr.w - w else x) w ≤ v.scr.w
    split
    · rw [satAdd_eq (by omega)]
      omega
    · omega
  · show satAdd (if v.hWork < satAdd y h then v.hWork - h else y) h ≤ v.hWork
    split
    · rw [satAdd_eq (by omega)]
      omega
    · omega

theorem row_le (v : View) : v.row ≤ 40 := Nat.add_le_add_right v.font.h_le 8

theorem deskMenu_inside (v : View) :
    v.deskMenuPopup.x1 ≤ v.scr.w ∧ v.deskMenuPopup.y1 ≤ v.hWork := by
  refine menuPopup_inside (min_le_right ..) ?_
  have h1 := row_le v
  have h2 := v.tall
  have h3 := (hWork_bounds v).2
  show satAdd 16 v.row ≤ v.hWork
  rw [satAdd_eq (by omega)]
  omega

theorem filesMenu_inside (v : View) :
    v.filesMenuPopup.x1 ≤ v.scr.w ∧ v.filesMenuPopup.y1 ≤ v.hWork := by
  refine menuPopup_inside (min_le_right ..) ?_
  have h1 := row_le v
  have h2 := v.tall
  have h3 := (hWork_bounds v).2
  show satAdd 16 (min (v.row * 3) (2 ^ 32 - 1)) ≤ v.hWork
  rw [min_eq_left (by omega), satAdd_eq (by omega)]
  omega

theorem deskMenuBody_clipped : Clipped Rect.Mem v.deskMenuPopup.Mem v.deskMenuBody := by
  unfold View.deskMenuBody
  exact .cons (part_clipped _ (fillRound_all ..)) (.cons (part_clipped _ (listRow_clipped ..)) .nil)

theorem filesMenuBody_clipped : Clipped Rect.Mem v.filesMenuPopup.Mem v.filesMenuBody := by
  unfold View.filesMenuBody
  exact .cons (part_clipped _ (fillRound_all ..))
    (.cons (.each fun ri _ => part_clipped _ (listRowFg_clipped ..)) .nil)

theorem paintDeskMenuClip_keeps : Keeps Rect.Mem (v.Beside v.deskMenuPopup) v.paintDeskMenuClip :=
  popup_keeps (g := v.deskMenuPopup.shaded) (shadePx_apply _ _) (fun _ _ h => if_neg h)
    deskMenuBody_clipped.keeps

theorem paintDeskMenuClip_reads : Reads (Rect.Among good) v.paintDeskMenuClip :=
  popup_reads (g := v.deskMenuPopup.shaded) (shadePx_apply _ _) deskMenuBody_clipped.keeps.outside
    (deskMenuBody_clipped.reads.sub fun _ _ h => h.1)
    (fun _ _ _ hc h => Rect.intersects_iff.mpr ⟨_, _, h, hc⟩)
    (mem_overlayShadow (deskMenu_inside v).1 (deskMenu_inside v).2)

theorem paintFilesMenuClip_keeps :
    Keeps Rect.Mem (v.Beside v.filesMenuPopup) v.paintFilesMenuClip :=
  popup_keeps (g := v.filesMenuPopup.shaded) (shadePx_apply _ _) (fun _ _ h => if_neg h)
    filesMenuBody_clipped.keeps

theorem paintFilesMenuClip_reads : Reads (Rect.Among good) v.paintFilesMenuClip :=
  popup_reads (g := v.filesMenuPopup.shaded) (shadePx_apply _ _) filesMenuBody_clipped.keeps.outside
    (filesMenuBody_clipped.reads.sub fun _ _ h => h.1)
    (fun _ _ _ hc h => Rect.intersects_iff.mpr ⟨_, _, h, hc⟩)
    (mem_overlayShadow (filesMenu_inside v).1 (filesMenu_inside v).2)

/-- The last lines of the launcher, which leave it on a screen too low for its list. -/
def View.FooterAt (v : View) (p : ℕ × ℕ) : Prop :=
  ∃ f < 2, p.1 < v.launcherPopup.x1 ∧
    Line v.font (satAdd v.launcherPopup.x0 pad) (satAdd (v.footerY f) (gap / 2)) p

theorem launcherBody_clipped :
    Clipped Rect.Mem (fun p => v.launcherPopup.Mem p ∨ v.FooterAt p) v.launcherBody := by
  have hpart {P : Rect → Paint} (h : Clipped Rect.Mem All P) :
      Clipped Rect.Mem (fun p => v.launcherPopup.Mem p ∨ v.FooterAt p) fun clip =>
        P (v.launcherPopup.intersect clip) :=
    (part_clipped v.launcherPopup h).mono fun _ => .inl
  have hfooter (f : ℕ) (hf : f < 2) :
      Clipped Rect.Mem (fun p => v.launcherPopup.Mem p ∨ v.FooterAt p) (v.paintFooter f) := by
    unfold View.paintFooter
    refine .cons (.ite (.ite (hpart (fillRound_all ..)) (hpart (fillRound_all ..))) .skip)
      (.cons ?_ .nil)
    exact (text_clipped (satAdd_lt ..) (satAdd_lt ..) ..).mono fun p hp => .inr ⟨f, hf, hp⟩
  unfold View.launcherBody
  exact .cons (hpart (fillRound_all ..)) (.cons (.each fun ni _ => hpart (listRow_clipped ..))
    (.cons (hpart (separator_clipped ..)) (.cons (.range fun f _ hf => hfooter f hf) .nil)))

theorem launcher_inside (v : View) : v.launcherPopup.x1 ≤ v.scr.w ∧ v.launcherPopup.y1 ≤ v.hWork :=
  ⟨min_le_right .., Nat.sub_le ..⟩

theorem paintLauncherClip_keeps :
    Keeps Rect.Mem (fun p => v.Beside v.launcherPopup p ∨ v.FooterAt p) v.paintLauncherClip := by
  have h :
      Keeps Rect.Mem (fun p => (v.overlayShadow v.launcherPopup).Mem p ∧ v.launcherPopup.Near p ∨
      v.launcherPopup.Mem p ∨ v.FooterAt p) v.paintLauncherClip :=
    popup_keeps (g := v.launcherPopup.shaded) (shadePx_apply _ _) (fun _ _ h => if_neg h)
      launcherBody_clipped.keeps
  exact h.mono fun p hp => or_assoc.mpr hp

theorem paintLauncherClip_reads
    (hmet : ∀ clip p, good clip → clip.Mem p → v.FooterAt p → v.launcherPopup.Intersects clip) :
    Reads (Rect.Among good) v.paintLauncherClip :=
  popup_reads (g := v.launcherPopup.shaded) (shadePx_apply _ _) launcherBody_clipped.keeps.outside
    (launcherBody_clipped.reads.sub fun _ _ h => h.1)
    (fun clip p hgood hc h => h.elim (fun hop => Rect.intersects_iff.mpr ⟨_, _, hop, hc⟩)
      (hmet clip p hgood hc)) (mem_overlayShadow (launcher_inside v).1 (launcher_inside v).2)

/-- The line above the hint of the search popup. -/
def View.KrunnerSep (v : View) (p : ℕ × ℕ) : Prop :=
  p.2 = v.krunnerPopup.y1 - v.hintH ∧ satAdd v.krunnerPopup.x0 pad ≤ p.1 ∧
    p.1 < satAdd v.krunnerPopup.x0 pad + (v.krunnerPopup.x1 - v.krunnerPopup.x0 - pad * 2) ∧
    v.tgt.Has p

instance (v : View) (p : ℕ × ℕ) : Decidable (v.KrunnerSep p) := inferInstanceAs (Decidable (_ ∧ _))

theorem krunnerSep_apply (s : ℕ × ℕ → Color) (p : ℕ × ℕ) :
    v.krunnerSep s p = if v.KrunnerSep p then Theme.border else s p := fillSpan_apply ..

theorem le_satAdd_right {a b : ℕ} (h : b < 2 ^ 32) : b ≤ satAdd a b := by
  rw [satAdd]
  omega

theorem hintH_le (v : View) : 8 ≤ v.hintH ∧ v.hintH ≤ 40 :=
  ⟨Nat.le_add_left .., Nat.add_le_add_right v.font.h_le 8⟩

theorem krunner_width (v : View) : v.krunnerPopup.x1 = v.krunnerPopup.x0 + min 480 (v.scr.w - 16) ∧
    v.krunnerPopup.x1 ≤ v.scr.w := by
  have hw := v.w_lt
  have hwide := v.wide
  have hmax : max (min 480 (v.scr.w - 16)) 1 = min 480 (v.scr.w - 16) := max_eq_left (by omega)
  refine ⟨?_, min_le_right ..⟩
  show min (satAdd ((v.scr.w - max (min 480 (v.scr.w - 16)) 1) / 2)
      (max (min 480 (v.scr.w - 16)) 1)) v.scr.w = (v.scr.w - max (min 480 (v.scr.w - 16)) 1) / 2 +
        min 480 (v.scr.w - 16)
  rw [hmax, satAdd_eq (by omega)]
  omega

theorem krunner_height (v : View) :
    v.krunnerPopup.y0 + v.hintH ≤ v.krunnerPopup.y1 ∧ v.krunnerPopup.y1 ≤ v.hWork := by
  have hlt := v.h_lt
  have htall := v.tall
  have hwork := hWork_bounds v
  have hhint := hintH_le v
  refine ⟨?_, min_le_right ..⟩
  show v.hWork / 4 + v.hintH ≤ min (satAdd (v.hWork / 4) (satAdd _ v.hintH)) v.hWork
  have hle :=
    le_satAdd_right (a := satAdd (satAdd (pad * 2) v.row)
      (satMul (max v.menus.runnerList.length 1) v.row)) (b := v.hintH) (by omega)
  refine le_min ?_ (by omega)
  rw [satAdd]
  omega

theorem krunnerSep_inside {p : ℕ × ℕ} (hp : v.KrunnerSep p) : v.krunnerPopup.Mem p := by
  obtain ⟨hy, hx0, hx1, -⟩ := hp
  have hw := v.w_lt
  have hhint := hintH_le v
  have hwidth := krunner_width v
  have hheight := krunner_height v
  have hpad : satAdd v.krunnerPopup.x0 pad = v.krunnerPopup.x0 + 8 :=
    satAdd_eq (show v.krunnerPopup.x0 + 8 < 2 ^ 32 by omega)
  have hx1 : p.1 < satAdd v.krunnerPopup.x0 pad + (v.krunnerPopup.x1 - v.krunnerPopup.x0 - 16) :=
    hx1
  rw [hpad] at hx0 hx1
  exact ⟨by omega, by omega, by omega, by omega⟩

theorem krunnerList_clipped : Clipped Rect.Mem v.krunnerPopup.Mem v.krunnerList := by
  unfold View.krunnerList
  exact .cons (part_clipped _ (fillStrokeRound_all ..))
    (.cons (part_clipped _ (queryField_clipped ..))
      (.cons (.ite (part_clipped _ (text_all (satAdd_lt ..) (satAdd_lt ..) ..))
      (.each fun ni _ => part_clipped _ (listRowBadge_clipped ..))) .nil))

theorem krunnerHint_clipped : Clipped Rect.Mem v.krunnerPopup.Mem v.krunnerHint := by
  unfold View.krunnerHint
  exact part_clipped _ (text_all (satAdd_lt ..) (satAdd_lt ..) ..)

theorem krunnerBody_outside (clip : Rect) (s : ℕ × ℕ → Color) (p : ℕ × ℕ)
    (hp : ¬ v.krunnerPopup.Mem p) : v.krunnerBody clip s p = s p := by
  rw [View.krunnerBody, draws, draws, draws, draws, krunnerHint_clipped.keeps.outside _ _ _ hp,
    krunnerSep_apply, if_neg fun h => hp (krunnerSep_inside h),
    krunnerList_clipped.keeps.outside _ _ _ hp]

theorem krunnerBody_reads : Reads Rect.Mem v.krunnerBody := by
  refine .cons krunnerList_clipped.reads
    (.cons (fun c c' s s' p _ _ hs => ?_) (.cons krunnerHint_clipped.reads .nil))
  rw [krunnerSep_apply, krunnerSep_apply, hs]

def Rect.shadedBelow (op : Rect) (p : ℕ × ℕ) (dst : Color) : Color :=
  if op.Near p then blend dst Theme.shadow (shadowA (min (op.sdf p.1 p.2) 7)) else dst

theorem shadeKrunnerPx_apply (pop : Rect) (x y : ℕ) (s : ℕ × ℕ → Color) (p : ℕ × ℕ) :
    v.shadeKrunnerPx pop x y s p = if p = (x, y) ∧ v.tgt.Has p then pop.shadedBelow p (s p)
      else s p := by
  rw [View.shadeKrunnerPx, Rect.shadedBelow]
  exact near_apply v.tgt pop (fun d dst => blend dst Theme.shadow (shadowA (min d 7))) x y s p

theorem mem_krunnerShadow (p : ℕ × ℕ) (hp : v.krunnerPopup.Mem p) :
    (v.overlayShadow v.krunnerPopup).Mem p :=
  mem_overlayShadow (krunner_width v).2 (krunner_height v).2 p hp

theorem paintKrunnerClip_reads : Reads (Rect.Among good) v.paintKrunnerClip :=
  popup_reads (g := v.krunnerPopup.shadedBelow) (shadeKrunnerPx_apply _) krunnerBody_outside
    (krunnerBody_reads.sub fun _ _ h => h.1)
    (fun _ _ _ hc h => Rect.intersects_iff.mpr ⟨_, _, h, hc⟩) mem_krunnerShadow

theorem krunnerBody_beyond {clip : Rect} {p : ℕ × ℕ} (hp : ¬ clip.Mem p) (s : ℕ × ℕ → Color) :
    v.krunnerBody clip s p = if v.KrunnerSep p then Theme.border else s p := by
  rw [View.krunnerBody, draws, draws, draws, draws, krunnerHint_clipped.keeps _ _ _ fun h => hp h.1,
    krunnerSep_apply, krunnerList_clipped.keeps _ _ _ fun h => hp h.1]

theorem paintKrunnerClip_beyond {clip : Rect} {p : ℕ × ℕ} (hp : ¬ clip.Mem p) (s : ℕ × ℕ → Color) :
    v.paintKrunnerClip clip s p = if v.krunnerPopup.Intersects clip ∧ v.KrunnerSep p
      then Theme.border else s p := by
  have hring (s : ℕ × ℕ → Color) :
      shadeRing (shadowBands v.krunnerPopup (v.overlayShadow v.krunnerPopup))
      (v.shadeKrunnerPx v.krunnerPopup) ((v.overlayShadow v.krunnerPopup).intersect clip) s p =
        s p :=
    (ring_clipped (N := All) (shadeKrunnerPx_apply v.krunnerPopup) (fun _ _ h => absurd trivial h)
      _).keeps clip s p fun h => hp h.1
  rw [View.paintKrunnerClip, popup]
  by_cases hmeet : v.krunnerPopup.Intersects clip
  · have hsh : (v.overlayShadow v.krunnerPopup).Intersects clip := by
      obtain ⟨x, y, hpop, hc⟩ := Rect.intersects_iff.mp hmeet
      exact Rect.intersects_iff.mpr ⟨x, y, mem_krunnerShadow (x, y) hpop, hc⟩
    rw [if_neg (not_not.mpr hsh), draws, draws, draws, if_neg hmeet, krunnerBody_beyond hp, hring]
    by_cases hsep : v.KrunnerSep p
    · rw [if_pos hsep, if_pos ⟨hmeet, hsep⟩]
    · rw [if_neg hsep, if_neg fun h => hsep h.2]
  · rw [if_neg (show ¬ (v.krunnerPopup.Intersects clip ∧ v.KrunnerSep p) from fun h => hmeet h.1)]
    split
    · rfl
    · rw [draws, draws, draws, if_pos (not_not.mp hmeet), skip_apply, hring]

theorem confirm_width (v : View) :
    v.confirmPopup.x1 = v.confirmPopup.x0 + 288 ∧ v.confirmPopup.x1 ≤ v.scr.w := by
  have hw := v.w_lt
  have hwide := v.wide
  have hmin : min 288 (v.scr.w - 7 * 2) = 288 := min_eq_left (by omega)
  have hx1 : v.confirmPopup.x1 = (v.scr.w - 288) / 2 + 288 := by
    show satAdd ((v.scr.w - min 288 (v.scr.w - 7 * 2)) / 2) (min 288 (v.scr.w - 7 * 2)) = _
    rw [hmin, satAdd_eq (by omega)]
  have hx0 : v.confirmPopup.x0 = (v.scr.w - 288) / 2 := by
    show (v.scr.w - min 288 (v.scr.w - 7 * 2)) / 2 = _
    rw [hmin]
  omega

theorem confirm_height (v : View) :
    v.confirmPopup.y1 = v.confirmPopup.y0 + (v.font.h + 48) ∧ v.confirmPopup.y1 ≤ v.hWork := by
  have hlt := v.h_lt
  have htall := v.tall
  have hwork := hWork_bounds v
  have hh : v.font.h ≤ 32 := v.font.h_le
  have hsum : satAdd (satAdd (satAdd (pad * 2) v.font.h) gap) buttonH = v.font.h + 48 := by
    show satAdd (satAdd (satAdd 16 v.font.h) 8) 24 = _
    rw [satAdd_eq (a := 16) (by omega), satAdd_eq (b := 8) (by omega), satAdd_eq (by omega)]
    omega
  have hy0 : v.confirmPopup.y0 = (v.hWork - (v.font.h + 48)) / 2 := by
    show (v.hWork - satAdd (satAdd (satAdd (pad * 2) v.font.h) gap) buttonH) / 2 = _
    rw [hsum]
  have hy1 : v.confirmPopup.y1 = satAdd v.confirmPopup.y0 (v.font.h + 48) := by
    show satAdd v.confirmPopup.y0 (satAdd (satAdd (satAdd (pad * 2) v.font.h) gap) buttonH) = _
    rw [hsum]
  rw [satAdd_eq (by omega)] at hy1
  omega

/-- A button inside the dialog. -/
structure View.BtnInside (v : View) (r : Rect) : Prop where
  left : v.confirmPopup.x0 ≤ r.x0
  right : r.x1 ≤ v.confirmPopup.x1
  top : v.confirmPopup.y0 ≤ r.y0
  bottom : r.y0 + 32 ≤ v.confirmPopup.y1
  height : r.y1 = r.y0 + 24
  low : r.x0 < 2 ^ 31

theorem confirmBtns_inside (v : View) :
    v.BtnInside v.confirmBtns.1 ∧ v.BtnInside v.confirmBtns.2 := by
  have hw := v.w_lt
  have hlt := v.h_lt
  have hwork := hWork_bounds v
  have hwidth := confirm_width v
  have hheight := confirm_height v
  have hbw : (v.confirmPopup.x1 - v.confirmPopup.x0 - 24) / 2 = 132 := by omega
  have hx0 : v.confirmBtns.1.x0 = v.confirmPopup.x0 + 8 :=
    satAdd_eq (show v.confirmPopup.x0 + 8 < 2 ^ 32 by omega)
  have hx1 : v.confirmBtns.1.x1 = v.confirmPopup.x0 + 140 := by
    show satAdd (satAdd v.confirmPopup.x0 8) ((v.confirmPopup.x1 - v.confirmPopup.x0 - 24) / 2) = _
    rw [hbw, satAdd_eq (b := 8) (by omega), satAdd_eq (by omega)]
  have hy1 : satAdd (v.confirmPopup.y1 - 32) 24 = v.confirmPopup.y1 - 32 + 24 :=
    satAdd_eq (by omega)
  have hok : v.confirmBtns.2.x0 = v.confirmPopup.x0 + 148 := by
    show satAdd v.confirmBtns.1.x1 8 = _
    rw [hx1, satAdd_eq (by omega)]
  have hokx1 : v.confirmBtns.2.x1 = v.confirmPopup.x1 - 8 := rfl
  have htop : v.confirmBtns.1.y0 = v.confirmPopup.y1 - 32 := rfl
  have htop2 : v.confirmBtns.2.y0 = v.confirmPopup.y1 - 32 := rfl
  exact ⟨⟨by omega, by omega, by omega, by omega, by rw [htop]; exact hy1, by omega⟩,
    ⟨by omega, by omega, by omega, by omega, by rw [htop2]; exact hy1, by omega⟩⟩

theorem paintBtn_clipped {r : Rect} (hr : v.BtnInside r) (label : String) (focused danger : Bool) :
    Clipped Rect.Mem v.confirmPopup.Mem (v.paintBtn r label focused danger) := by
  have hlt := v.h_lt
  have hwork := hWork_bounds v
  have hheight := confirm_height v
  have hh : v.font.h ≤ 32 := v.font.h_le
  unfold View.paintBtn
  refine .cons (.ite (part_clipped _ (fillRound_all ..))
    (.ite (.ite (part_clipped _ (fillRound_all ..)) (part_clipped _ (fillRound_all ..)))
      (part_clipped _ (fillStrokeRound_all ..)))) (.cons ?_ .nil)
  refine (text_clipped (satAdd_lt ..) (satAdd_lt ..) ..).mono ?_
  rintro p ⟨hright, hleft, htop, hbottom⟩
  have hleft : satAdd r.x0 4 ≤ p.1 := hleft
  have hlow := hr.low
  have hbottom' := hr.bottom
  have hheight' := hr.height
  rw [satAdd_eq (by omega)] at hleft htop hbottom
  exact ⟨hr.left.trans (by omega), hright.trans_le hr.right, hr.top.trans (by omega), by omega⟩

theorem confirmBody_clipped (kind : PowerKind) :
    Clipped Rect.Mem v.confirmPopup.Mem (v.confirmBody kind) := by
  have hw := v.w_lt
  have hlt := v.h_lt
  have hwork := hWork_bounds v
  have hwidth := confirm_width v
  have hheight := confirm_height v
  unfold View.confirmBody
  refine .cons (part_clipped _ (fillStrokeRound_all ..))
    (.cons ?_ (.cons (paintBtn_clipped (confirmBtns_inside v).1 ..)
    (.cons (paintBtn_clipped (confirmBtns_inside v).2 ..) .nil)))
  refine (text_clipped (satAdd_lt ..) (satAdd_lt ..) ..).mono ?_
  rintro p ⟨hright, hleft, htop, hbottom⟩
  have hleft : satAdd v.confirmPopup.x0 8 ≤ p.1 := hleft
  have htop : satAdd v.confirmPopup.y0 8 ≤ p.2 := htop
  have hbottom : p.2 < satAdd v.confirmPopup.y0 8 + v.font.h := hbottom
  rw [satAdd_eq (by omega)] at hleft htop hbottom
  exact ⟨by omega, hright, by omega, by omega⟩

theorem paintScrim_eq {clip : Rect} (hvis : ¬ (v.workRect.intersect clip).IsEmpty) :
    v.paintScrim clip = scrim v.tgt 0 0 v.scr.w v.hWork clip := by
  have hw := v.w_lt
  have hlt := v.h_lt
  have hwork := hWork_bounds v
  have hx1 :
      satAdd (v.workRect.intersect clip).x0
        ((v.workRect.intersect clip).x1 - (v.workRect.intersect clip).x0) =
      (v.workRect.intersect clip).x1 := by
    have hle : (v.workRect.intersect clip).x1 ≤ v.scr.w := min_le_left ..
    rw [Rect.IsEmpty] at hvis
    rw [satAdd_eq (by omega)]
    omega
  have hy1 :
      satAdd (v.workRect.intersect clip).y0
        ((v.workRect.intersect clip).y1 - (v.workRect.intersect clip).y0) =
      (v.workRect.intersect clip).y1 := by
    have hle : (v.workRect.intersect clip).y1 ≤ v.hWork := min_le_left ..
    rw [Rect.IsEmpty] at hvis
    rw [satAdd_eq (by omega)]
    omega
  have hw0 : satAdd 0 v.scr.w = v.scr.w := (satAdd_eq (by omega)).trans (Nat.zero_add _)
  have hh0 : satAdd 0 v.hWork = v.hWork := (satAdd_eq (by omega)).trans (Nat.zero_add _)
  rw [View.paintScrim, if_neg hvis, scrim, scrim, hx1, hy1, hw0, hh0]
  simp only [min_self, max_self]
  rfl

theorem paintScrim_clipped : Clipped Rect.Mem v.workRect.Mem v.paintScrim := by
  have hw := v.w_lt
  have hwork := hWork_bounds v
  have hlt := v.h_lt
  have hscrim : Clipped Rect.Mem v.workRect.Mem fun clip =>
      if (v.workRect.intersect clip).IsEmpty then skip
        else scrim v.tgt 0 0 v.scr.w v.hWork clip := by
    refine .guarded (fun clip p hc hr => Rect.not_isEmpty_of_mem (Rect.mem_intersect.mpr ⟨hr, hc⟩))
      ((scrim_clipped ..).mono ?_)
    rintro p ⟨h1, h2, h3, h4⟩
    rw [satAdd_eq (by omega), Nat.zero_add] at h2 h4
    exact ⟨h1, h2, h3, h4⟩
  convert hscrim using 2 with clip
  by_cases hvis : (v.workRect.intersect clip).IsEmpty
  · rw [View.paintScrim, if_pos hvis, if_pos hvis]
  · rw [paintScrim_eq hvis, if_neg hvis]

theorem mem_confirmShadow (p : ℕ × ℕ) (hp : v.confirmPopup.Mem p) :
    (v.overlayShadow v.confirmPopup).Mem p :=
  mem_overlayShadow (confirm_width v).2 (confirm_height v).2 p hp

theorem paintConfirmClip_clipped (kind : PowerKind) :
    Clipped Rect.Mem (fun p => v.workRect.Mem p ∨ (v.overlayShadow v.confirmPopup).Mem p)
      (v.paintConfirmClip kind) := by
  have hbody :
      Clipped Rect.Mem (fun p => v.workRect.Mem p ∨ (v.overlayShadow v.confirmPopup).Mem p)
        fun clip =>
      if (v.confirmPopup.intersect clip).IsEmpty then skip else v.confirmBody kind clip :=
    (Clipped.guarded (fun clip p hc hr => Rect.not_isEmpty_of_mem (Rect.mem_intersect.mpr ⟨hr, hc⟩))
      (confirmBody_clipped kind)).mono fun p hp => .inr (mem_confirmShadow p hp)
  refine .guarded ?_ (.cons (paintScrim_clipped.mono fun _ => .inl)
    (.cons ((ring_clipped (g := v.confirmPopup.shaded) (N := v.confirmPopup.Near)
      (shadePx_apply _ _) (fun _ _ h => if_neg h) _).mono fun _ h => .inr h.1) (.cons hbody .nil)))
  rintro clip p hc (hr | hr) ⟨hwork, hsh⟩
  · exact hwork (Rect.intersects_iff.mpr ⟨_, _, hr, hc⟩)
  · exact hsh (Rect.intersects_iff.mpr ⟨_, _, hr, hc⟩)

theorem paintToastClip_clipped : Clipped Rect.Mem v.toastRect.Mem v.paintToastClip := by
  have hw := v.w_lt
  have hlt := v.h_lt
  have hwork := hWork_bounds v
  have hx : v.toastRect.x0 + 16 < 2 ^ 32 := by
    have hle : v.toastRect.x0 ≤ v.scr.w := (Nat.div_le_self ..).trans (Nat.sub_le ..)
    omega
  have hy : v.toastRect.y0 + (32 - v.font.h) / 2 < 2 ^ 32 := by
    have hle : v.toastRect.y0 ≤ v.hWork := Nat.sub_le ..
    omega
  have htext : Clipped Rect.Mem v.toastRect.Mem fun clip => text v.font v.tgt (v.toastRect.x0 + 16)
      (v.toastRect.y0 + (32 - v.font.h) / 2) v.toast Theme.text (v.toastRect.intersect clip).x1
        (v.toastRect.intersect clip) := by
    have hfrom :
        Clipped Before (Line v.font (v.toastRect.x0 + 16) (v.toastRect.y0 + (32 - v.font.h) / 2))
          fun b =>
        textFrom v.font v.tgt (v.toastRect.y0 + (32 - v.font.h) / 2) Theme.text b.1 b.2 v.toast
          (v.toastRect.x0 + 16) :=
      textFrom_clipped hy Theme.text v.toast hx
    have hvia :=
      hfrom.via (φ := fun clip => ((v.toastRect.intersect clip).x1, v.toastRect.intersect clip))
      (fun clip p =>
        (⟨fun h => (mem_cut ..).mp h.2, fun h => ⟨((mem_cut ..).mpr h).2.1, (mem_cut ..).mpr h⟩⟩ :
        Before ((v.toastRect.intersect clip).x1, v.toastRect.intersect clip) p ↔
        clip.Mem p ∧ v.toastRect.Mem p))
    exact hvia.mono fun _ h => h.1
  refine .guarded (fun clip p hc hr => not_not.mpr (Rect.intersects_iff.mpr ⟨_, _, hr, hc⟩)) ?_
  exact .cons (part_clipped _ (fillStrokeRound_all ..)) (.cons htext .nil)

end Clips

end CoeleoOs.Ui
