import CoeleoOs.Ui.Clients
import CoeleoOs.Ui.Pointer

/-!
# Maximised frames and the panel

The panel is painted without gaps while a maximised frame is visible; the compositor keeps
that in a field of its own, which some of the window operations bring up to date. A maximised
frame fills the work area that the panel leaves.
-/

namespace CoeleoOs.Ui
open CoeleoOs.Lib CoeleoOs.Lib.Machine CoeleoOs.Fs CoeleoOs.Input
open CoeleoOs.Task (Bytes)

namespace Frame

def shownMax (f : Frame) : Bool := f.maximized && !f.minimized

/-- With its title bar the frame is the whole work area. -/
structure Fills (scr : Screen) (work : ℕ) (f : Frame) : Prop where
  ox : f.ox = 0
  oy : f.oy = 0
  cw : f.cw = scr.w
  ch : decoH + f.ch = work

instance (scr : Screen) (work : ℕ) (f : Frame) : Decidable (f.Fills scr work) :=
  decidable_of_iff (f.ox = 0 ∧ f.oy = 0 ∧ f.cw = scr.w ∧ decoH + f.ch = work)
    ⟨fun h => ⟨h.1, h.2.1, h.2.2.1, h.2.2.2⟩, fun h => ⟨h.ox, h.oy, h.cw, h.ch⟩⟩

end Frame

def Wm.anyMaximized (w : Wm) : Bool := w.frames.any Frame.shownMax

/-- The frames and `panel_opaque`. -/
structure Panel where
  desk : Desk
  panelOpaque : Bool

namespace WmOp

variable (scr : Screen)

def panel (p : Panel) (op : WmOp) : Panel :=
  let d := op.apply scr p.desk
  { desk := d
    panelOpaque :=
      match op with
      | minimize i =>
        if p.desk.wm.frames[i]?.all Frame.minimized then p.panelOpaque else d.wm.anyMaximized
      | close i => if i < p.desk.wm.frames.length then d.wm.anyMaximized else p.panelOpaque
      | restore _ | toggleMax _ => d.wm.anyMaximized
      | _ => p.panelOpaque }

def panels (ops : List WmOp) (p : Panel) : Panel := ops.foldl (panel scr) p

theorem panels_desk (ops : List WmOp) (p : Panel) :
    (panels scr ops p).desk = run scr ops p.desk := by
  induction ops generalizing p with
  | nil => rfl
  | cons op ops ih => exact ih (panel scr p op)

/-- A maximised frame that comes up fills the work area, and another one is up already. -/
def Shows (d : Desk) (i : ℕ) : Prop :=
  ∀ f ∈ d.wm.frames[i]?, f.maximized = true → f.Fills scr (workH scr d.mode) ∧
    d.wm.anyMaximized = true

/-- An operation after which the panel is still right. -/
def Syncs (d : Desk) : WmOp → Prop
  | restore i => ∀ f ∈ d.wm.frames[i]?, f.maximized = true → f.Fills scr (workH scr d.mode)
  | showFrame i => Shows scr d i
  | showKind kind => ∀ i ∈ d.wm.position kind, Shows scr d i
  | clientClose id =>
    ∀ i ∈ d.wm.position (.client id), ∀ f ∈ d.wm.frames[i]?, f.shownMax = true →
      (d.wm.frames.eraseIdx i).any Frame.shownMax = true
  | _ => True

def Fit (d : Desk) : WmOp → Prop
  | toggleMax _ => d.wm.drag = none
  | drag g => ∀ d' ∈ g, ∀ f ∈ d.wm.frames, f.kind = d'.kind → f.maximized = false
  | _ => True

/-- Each operation of a list, where it is done. -/
def Along (C : Desk → WmOp → Prop) : List WmOp → Desk → Prop
  | [], _ => True
  | op :: ops, d => C d op ∧ Along C ops (op.apply scr d)

end WmOp

/-- What holds of the frames between two operations. -/
structure KeptFrames (scr : Screen) (work : ℕ) (frames : List Frame) (drag : Option Drag)
    (panelOpaque : Bool) : Prop where
  nodup : (frames.map Frame.kind).Nodup
  loose : ∀ d ∈ drag, ∀ f ∈ frames, f.kind = d.kind → f.maximized = false
  flag : panelOpaque = frames.any Frame.shownMax
  fills : ∀ f ∈ frames, f.shownMax = true → f.Fills scr work

namespace KeptFrames

variable {scr : Screen} {work i : ℕ} {frames frames' rest : List Frame} {drag : Option Drag}
    {flag : Bool} {f g : Frame}

theorem perm (h : KeptFrames scr work frames drag flag) (hp : frames.Perm frames') :
    KeptFrames scr work frames' drag flag where
  nodup := (hp.map Frame.kind).nodup_iff.mp h.nodup
  loose := fun d hd f hf => h.loose d hd f (hp.mem_iff.mpr hf)
  flag := h.flag.trans (hp.any_eq)
  fills := fun f hf => h.fills f (hp.mem_iff.mpr hf)

theorem noDrag (h : KeptFrames scr work frames drag flag) : KeptFrames scr work frames none flag :=
  ⟨h.nodup, nofun, h.flag, h.fills⟩

theorem exchange (h : KeptFrames scr work (f :: rest) drag flag) (hkind : g.kind = f.kind)
    (hloose : ∀ d ∈ drag, g.kind = d.kind → g.maximized = false)
    (hfills : g.shownMax = true → g.Fills scr work) :
    KeptFrames scr work (g :: rest) drag ((g :: rest).any Frame.shownMax) where
  nodup := by
    have hnodup := h.nodup
    rw [List.map_cons] at hnodup ⊢
    rw [hkind]
    exact hnodup
  loose := by
    intro d hd f' hf' hd'
    rcases List.mem_cons.mp hf' with rfl | hf'
    · exact hloose d hd hd'
    · exact h.loose d hd f' (List.mem_cons_of_mem _ hf') hd'
  flag := rfl
  fills := by
    intro f' hf' hmax
    rcases List.mem_cons.mp hf' with rfl | hf'
    · exact hfills hmax
    · exact h.fills f' (List.mem_cons_of_mem _ hf') hmax

theorem remove (h : KeptFrames scr work (f :: rest) drag flag) :
    KeptFrames scr work rest drag (rest.any Frame.shownMax) where
  nodup := (List.nodup_cons.mp h.nodup).2
  loose := fun d hd f' hf' => h.loose d hd f' (List.mem_cons_of_mem _ hf')
  flag := rfl
  fills := fun f' hf' => h.fills f' (List.mem_cons_of_mem _ hf')

theorem insert (h : KeptFrames scr work frames drag flag) (hnew : f.kind ∉ frames.map Frame.kind)
    (hmax : f.maximized = false) : KeptFrames scr work (frames ++ [f]) drag flag := by
  have hshown : f.shownMax = false := by simp [Frame.shownMax, hmax]
  refine ⟨?_, ?_, ?_, ?_⟩
  · rw [List.map_append, List.map_singleton]
    exact List.nodup_append.mpr ⟨h.nodup, by simp, by
      intro a ha b hb
      rw [List.mem_singleton.mp hb]
      exact fun he => hnew (he ▸ ha)⟩
  · intro d hd f' hf' hd'
    rcases List.mem_append.mp hf' with hf' | hf'
    · exact h.loose d hd f' hf' hd'
    · rw [List.mem_singleton.mp hf']
      exact hmax
  · rw [List.any_append, h.flag]
    simp [hshown]
  · intro f' hf' hm
    rcases List.mem_append.mp hf' with hf' | hf'
    · exact h.fills f' hf' hm
    · rw [List.mem_singleton.mp hf', hshown] at hm
      cases hm

theorem reflag (h : KeptFrames scr work frames drag (frames.any Frame.shownMax))
    (hflag : flag = frames.any Frame.shownMax) : KeptFrames scr work frames drag flag := by
  rw [hflag]
  exact h

theorem any_split (h : frames[i]? = some f) :
    frames.any Frame.shownMax = (f.shownMax || (frames.eraseIdx i).any Frame.shownMax) :=
  (ZOrder.perm_of_getElem? h).any_eq.trans List.any_cons

theorem modify {u : Frame → Frame} (h : KeptFrames scr work frames drag flag) (i : ℕ)
    (hkind : ∀ f, (u f).kind = f.kind) (hloose : ∀ d ∈ drag, ∀ f ∈ frames[i]?, f.kind = d.kind →
      (u f).maximized = false) (hfills :
      ∀ f ∈ frames[i]?, (u f).shownMax = true → (u f).Fills scr work) :
    KeptFrames scr work (frames.modify i u) drag ((frames.modify i u).any Frame.shownMax) := by
  cases hi : frames[i]? with
  | none =>
    have hsame : frames.modify i u = frames := List.modify_eq_self (List.getElem?_eq_none_iff.mp hi)
    rw [hsame, ← h.flag]
    exact h
  | some f =>
    have hp := ZOrder.modify_perm u hi
    have hsplit := h.perm (ZOrder.perm_of_getElem? hi)
    rw [hp.any_eq]
    exact (hsplit.exchange (hkind f) (fun d hd hk => hloose d hd f hi ((hkind f).symm.trans hk))
      (hfills f hi)).perm hp.symm

theorem unminimize (h : KeptFrames scr work frames drag flag) (i : ℕ)
    (hfills : ∀ f ∈ frames[i]?, f.maximized = true → f.Fills scr work) :
    KeptFrames scr work (frames.modify i fun f => { f with minimized := false }) drag
      ((frames.modify i fun f => { f with minimized := false }).any Frame.shownMax) := by
  refine h.modify i (fun _ => rfl) (fun d hd f hf hk => h.loose d hd f (List.mem_of_getElem? hf) hk)
    fun f hf hmax => ?_
  have hfill := hfills f hf (by simpa [Frame.shownMax] using hmax)
  exact ⟨hfill.ox, hfill.oy, hfill.cw, hfill.ch⟩

theorem any_unminimize (i : ℕ) (hup : ∀ f ∈ frames[i]?, f.maximized = true →
    frames.any Frame.shownMax = true) : (frames.modify i fun f => { f with minimized := false }).any
      Frame.shownMax = frames.any Frame.shownMax := by
  cases hi : frames[i]? with
  | none => rw [List.modify_eq_self (List.getElem?_eq_none_iff.mp hi)]
  | some f =>
    rw [(ZOrder.modify_perm _ hi).any_eq, List.any_cons]
    have hold := any_split hi
    cases hmax : f.maximized with
    | true =>
      rw [hup f hi hmax]
      simp [Frame.shownMax]
    | false =>
      rw [hold]
      simp [Frame.shownMax, hmax]

end KeptFrames

namespace Panel

def Kept (scr : Screen) (p : Panel) : Prop :=
  KeptFrames scr (workH scr p.desk.mode) p.desk.wm.frames p.desk.wm.drag p.panelOpaque

end Panel

section Frames

variable (w : Wm)

theorem focusFrame_frames (i : ℕ) :
    (w.focusFrame i).frames = w.frames ∧ (w.focusFrame i).drag = w.drag := by
  rw [Wm.focusFrame]
  split <;> exact ⟨rfl, rfl⟩

theorem retargetFocus_frames :
    w.retargetFocus.frames = w.frames ∧ w.retargetFocus.drag = w.drag := by
  rw [Wm.retargetFocus]
  split
  · exact ⟨rfl, rfl⟩
  · exact focusFrame_frames w _

theorem dropDrag_frames (kind : FrameKind) : (w.dropDrag kind).frames = w.frames ∧
    ((w.dropDrag kind).drag = none ∨ (w.dropDrag kind).drag = w.drag) := by
  rw [Wm.dropDrag]
  split
  · exact ⟨rfl, .inl rfl⟩
  · exact ⟨rfl, .inr rfl⟩

theorem position_none {kind : FrameKind} (h : w.position kind = none) :
    kind ∉ w.frames.map Frame.kind := by
  intro hmem
  obtain ⟨f, hf, hkind⟩ := List.mem_map.mp hmem
  have := List.findIdx?_eq_none_iff.mp h f hf
  simp [hkind] at this

end Frames

namespace WmOp

variable {scr : Screen} {p : Panel}

theorem kept_showFrame {work i : ℕ} {w : Wm} {flag : Bool}
    (h : KeptFrames scr work w.frames w.drag flag) (hup : ∀ f ∈ w.frames[i]?, f.maximized = true →
      f.Fills scr work ∧ w.anyMaximized = true) : KeptFrames scr work (w.showFrame i).frames
        (w.showFrame i).drag flag := by
  obtain ⟨hframes, hdrag⟩ :=
    focusFrame_frames ((w.unminimize i).raise i) (((w.unminimize i).raise i).frames.length - 1)
  have hkept := h.unminimize i fun f hf hmax => (hup f hf hmax).1
  have hany := KeptFrames.any_unminimize i fun f hf hmax => (hup f hf hmax).2
  rw [Wm.showFrame, hframes, hdrag]
  exact (hkept.reflag (h.flag.trans hany.symm)).perm (ZOrder.raise_perm _ i).symm

theorem kept_closeFrame {work i : ℕ} {w : Wm} {flag : Bool} {f : Frame}
    (h : KeptFrames scr work w.frames w.drag flag) (hi : w.frames[i]? = some f) :
    (w.closeFrame i).frames = w.frames.eraseIdx i ∧
      KeptFrames scr work (w.closeFrame i).frames (w.closeFrame i).drag
        ((w.frames.eraseIdx i).any Frame.shownMax) := by
  obtain ⟨hframes, hdrag⟩ := dropDrag_frames w f.kind
  have hrest := (h.perm (ZOrder.perm_of_getElem? hi)).remove
  rw [Wm.closeFrame, hi]
  obtain ⟨hkept, hsame⟩ :=
    retargetFocus_frames { w.dropDrag f.kind with frames := (w.dropDrag f.kind).frames.eraseIdx i }
  rw [hkept, hsame]
  dsimp only
  rw [hframes]
  refine ⟨rfl, ?_⟩
  rcases hdrag with hdrag | hdrag
  · rw [hdrag]
    exact hrest.noDrag
  · rw [hdrag]
    exact hrest

theorem maxFrame_fills {mode : PanelMode} {f : Frame} (hscr : 200 ≤ scr.h)
    (h : (Wm.maxFrame scr (workH scr mode) f).shownMax = true) :
    (Wm.maxFrame scr (workH scr mode) f).Fills scr (workH scr mode) := by
  have hwork : decoH + 16 ≤ workH scr mode := by
    cases mode <;> simp only [workH, satAdd, panelH, panelMargin, decoH] <;> omega
  cases hmax : f.maximized with
  | true => simp [Wm.maxFrame, hmax, Frame.shownMax, clampFrameIn] at h
  | false =>
    have hch : decoH + max (workH scr mode - decoH) 16 = workH scr mode := by omega
    constructor
    · simp [Wm.maxFrame, hmax]
    · simp [Wm.maxFrame, hmax]
    · simp [Wm.maxFrame, hmax]
    · simpa [Wm.maxFrame, hmax] using hch

theorem kept_reflow {mode : PanelMode} {w : Wm} {work : ℕ} {flag : Bool} (hscr : 200 ≤ scr.h)
    (h : KeptFrames scr work w.frames w.drag flag) :
    KeptFrames scr (workH scr mode) (Wm.reflowMaximized scr (workH scr mode) w).frames w.drag
      flag := by
  have hwork : decoH + max (workH scr mode - decoH) 16 = workH scr mode := by
    cases mode <;> simp only [workH, satAdd, panelH, panelMargin, decoH] <;> omega
  have hkept : ∀ f, (Wm.reflowFrame scr (workH scr mode) f).kind = f.kind ∧
      (Wm.reflowFrame scr (workH scr mode) f).maximized = f.maximized ∧
      (Wm.reflowFrame scr (workH scr mode) f).shownMax = f.shownMax := by
    intro f
    rw [Wm.reflowFrame]
    split <;> exact ⟨rfl, rfl, rfl⟩
  refine ⟨?_, ?_, ?_, ?_⟩
  · rw [Wm.reflowMaximized, List.map_map]
    exact (List.map_congr_left fun f _ => (hkept f).1) ▸ h.nodup
  · intro d hd f hf hk
    obtain ⟨f', hf', rfl⟩ := List.mem_map.mp hf
    rw [(hkept f').2.1]
    exact h.loose d hd f' hf' ((hkept f').1.symm.trans hk)
  · rw [Wm.reflowMaximized, List.any_map, h.flag]
    exact List.any_congr rfl fun f => ((hkept f).2.2).symm
  · intro f hf hmax
    obtain ⟨f', hf', rfl⟩ := List.mem_map.mp hf
    rw [(hkept f').2.2, Frame.shownMax, Bool.and_eq_true, Bool.not_eq_true'] at hmax
    rw [Wm.reflowFrame, if_neg (by simp [hmax])]
    exact ⟨rfl, rfl, rfl, hwork⟩

theorem kept_follow {work : ℕ} {w : Wm} {flag : Bool} (cx cy : ℤ)
    (h : KeptFrames scr work w.frames w.drag flag) :
    KeptFrames scr work (Wm.applyDrag scr work cx cy w).frames (Wm.applyDrag scr work cx cy w).drag
      flag := by
  rw [Wm.applyDrag]
  cases hdrag : w.drag with
  | none =>
    dsimp only
    rw [hdrag] at h ⊢
    exact h
  | some d =>
    dsimp only
    cases hpos : w.position d.kind with
    | none => exact h.noDrag
    | some i =>
      obtain ⟨f, hf, hkind⟩ := Wm.position_kind hpos
      have hfree : f.maximized = false := h.loose d hdrag f (List.mem_of_getElem? hf) hkind
      have hmoved :
          ∀ u : Frame → Frame, (∀ f, (u f).kind = f.kind) → (∀ f, (u f).maximized = f.maximized) →
          KeptFrames scr work (w.modify i u).frames w.drag flag := by
        intro u hukind humax
        have hu : ∀ g ∈ w.frames[i]?, (u g).maximized = false := by
          intro g hg
          obtain rfl := Option.some.inj (hf.symm.trans hg)
          rw [humax, hfree]
        have hkept := h.modify i hukind (fun _ _ g hg _ => hu g hg) fun g hg hshown => by
          simp [Frame.shownMax, hu g hg] at hshown
        refine hkept.reflag ?_
        rw [h.flag, KeptFrames.any_split hf, (ZOrder.modify_perm u hf).any_eq, List.any_cons]
        simp [Frame.shownMax, hfree, hu f hf]
      cases d.edge with
      | none => exact hmoved (moveFrame scr work cx cy d) (fun _ => rfl) fun _ => rfl
      | some edge =>
        refine hmoved (resizeFrame scr work cx cy d edge) (fun f => ?_) fun f => ?_
        · rw [resizeFrame]
          split <;> rfl
        · rw [resizeFrame]
          split <;> rfl

theorem kept_ensureFrame {mode : PanelMode} {w w' : Wm} {kind : FrameKind} {j : ℕ} {flag : Bool}
    (h : KeptFrames scr (workH scr mode) w.frames w.drag flag) (hpos : w.position kind = none)
    (he : Wm.ensureFrame scr mode w kind = some (w', j)) :
    KeptFrames scr (workH scr mode) w'.frames w'.drag flag ∧
    ∀ f ∈ w'.frames[j]?, f.maximized = false := by
  rw [Wm.ensureFrame, hpos] at he
  simp only [Option.map_eq_some_iff] at he
  obtain ⟨r, -, hr⟩ := he
  obtain ⟨rfl, rfl⟩ := Prod.mk.inj hr
  refine ⟨h.insert ?_ rfl, fun f hf => ?_⟩
  · exact position_none w hpos
  · dsimp only at hf
    rw [List.getElem?_append_right le_rfl, Nat.sub_self] at hf
    obtain rfl := Option.some.inj hf
    rfl

theorem kept_panel (hscr : 200 ≤ scr.h) {op : WmOp} (h : p.Kept scr) (hfit : Fit p.desk op)
    (hsync : Syncs scr p.desk op) : (panel scr p op).Kept scr := by
  obtain ⟨⟨w, mode⟩, flag⟩ := p
  have hk : KeptFrames scr (workH scr mode) w.frames w.drag flag := h
  cases op with
  | setFocus g => exact hk
  | focusFrame i =>
    obtain ⟨hframes, hdrag⟩ := focusFrame_frames w i
    change KeptFrames scr (workH scr mode) (w.focusFrame i).frames (w.focusFrame i).drag flag
    rw [hframes, hdrag]
    exact hk
  | raise i => exact hk.perm (ZOrder.raise_perm w.frames i).symm
  | showFrame i => exact kept_showFrame hk hsync
  | showKind kind =>
    change Panel.Kept scr ⟨apply scr ⟨w, mode⟩ (.showKind kind), flag⟩
    rw [apply]
    dsimp only
    cases he : Wm.ensureFrame scr mode w kind with
    | none => exact hk
    | some r =>
      obtain ⟨w', j⟩ := r
      cases hpos : w.position kind with
      | none =>
        obtain ⟨hkept, hnew⟩ := kept_ensureFrame hk hpos he
        refine kept_showFrame hkept fun f hf hmax => ?_
        rw [hnew f hf] at hmax
        cases hmax
      | some i =>
        rw [Wm.ensureFrame, hpos] at he
        obtain ⟨rfl, rfl⟩ := Prod.mk.inj (Option.some.inj he)
        exact kept_showFrame hk (hsync i hpos)
  | minimize i =>
    change KeptFrames scr (workH scr mode) (w.minimizeFrame i).frames (w.minimizeFrame i).drag
      (if w.frames[i]?.all Frame.minimized then flag else (w.minimizeFrame i).anyMaximized)
    rw [Wm.anyMaximized, Wm.minimizeFrame]
    cases hi : w.frames[i]? with
    | none => exact hk
    | some f =>
      rw [Option.all_some]
      dsimp only
      cases hmin : f.minimized with
      | true => exact hk
      | false =>
        rw [if_neg (by simp), if_neg (by simp)]
        obtain ⟨hframes, hdrag⟩ :=
          retargetFocus_frames ((w.modify i fun f => { f with minimized := true }).dropDrag f.kind)
        obtain ⟨hdrop, hd⟩ :=
          dropDrag_frames (w.modify i fun f => { f with minimized := true }) f.kind
        rw [hframes, hdrag, hdrop]
        have hkept := hk.modify (u := fun f => { f with minimized := true }) i (fun _ => rfl)
          (fun d hd f hf hkind => hk.loose d hd f (List.mem_of_getElem? hf) hkind) fun f _ hmax =>
            by simp [Frame.shownMax] at hmax
        rcases hd with hd | hd
        · rw [hd]
          exact hkept.noDrag
        · rw [hd]
          exact hkept
  | restore i =>
    obtain ⟨hframes, hdrag⟩ := focusFrame_frames ((w.unminimize i).raise i) i
    change KeptFrames scr (workH scr mode) (w.restoreMin i).frames (w.restoreMin i).drag
        (w.restoreMin i).anyMaximized
    rw [Wm.anyMaximized, Wm.restoreMin, hframes, hdrag]
    have hperm := ZOrder.raise_perm (w.unminimize i).frames i
    change KeptFrames scr (workH scr mode) (ZOrder.raise (w.unminimize i).frames i) w.drag _
    exact ((hk.unminimize i hsync).reflag hperm.any_eq).perm hperm.symm
  | close i =>
    change KeptFrames scr (workH scr mode) (w.closeFrame i).frames (w.closeFrame i).drag
      (if i < w.frames.length then (w.closeFrame i).anyMaximized else flag)
    cases hi : w.frames[i]? with
    | none =>
      have hlen := List.getElem?_eq_none_iff.mp hi
      rw [if_neg (not_lt.mpr hlen), Wm.closeFrame, hi]
      exact hk
    | some f =>
      obtain ⟨hlt, -⟩ := List.getElem?_eq_some_iff.mp hi
      obtain ⟨hframes, hkept⟩ := kept_closeFrame hk hi
      rw [if_pos hlt, Wm.anyMaximized, hframes, ← hframes]
      rw [← hframes] at hkept
      exact hkept
  | clientClose id =>
    change Panel.Kept scr ⟨apply scr ⟨w, mode⟩ (.clientClose id), flag⟩
    rw [apply]
    dsimp only
    cases hpos : w.position (.client id) with
    | none => exact hk
    | some i =>
      obtain ⟨f, hi, -⟩ := Wm.position_kind hpos
      obtain ⟨-, hkept⟩ := kept_closeFrame hk hi
      have hsame : flag = (w.frames.eraseIdx i).any Frame.shownMax := by
        rw [hk.flag, KeptFrames.any_split hi]
        cases hshown : f.shownMax with
        | true => rw [hsync i hpos f hi hshown, Bool.or_self]
        | false => rw [Bool.false_or]
      rw [← hsame] at hkept
      exact hkept
  | toggleMax i =>
    have hdrag : w.drag = none := hfit
    have hperm := ZOrder.raise_perm (w.modify i (Wm.maxFrame scr (workH scr mode))).frames i
    have hkept :=
      hk.modify (u := Wm.maxFrame scr (workH scr mode)) i (fun f => (Wm.maxFrame_kind scr _ f).1)
      (fun d hd => by rw [hdrag] at hd; cases hd) fun f _ hmax => maxFrame_fills hscr hmax
    exact (hkept.reflag hperm.any_eq).perm hperm.symm
  | setMode m =>
    change Panel.Kept scr ⟨apply scr ⟨w, mode⟩ (.setMode m), flag⟩
    rw [apply]
    split
    · exact hk
    · exact kept_reflow hscr hk
  | drag g => exact ⟨hk.nodup, hfit, hk.flag, hk.fills⟩
  | follow cx cy => exact kept_follow cx cy hk

theorem shows_of_kept {w : Wm} {mode : PanelMode} {i : ℕ} {flag : Bool}
    (hflag : flag = w.anyMaximized) (h : KeptFrames scr (workH scr mode) (w.showFrame i).frames
      (w.showFrame i).drag flag) : Shows scr ⟨w, mode⟩ i := by
  intro f hf hmax
  obtain ⟨hframes, -⟩ :=
    focusFrame_frames ((w.unminimize i).raise i) (((w.unminimize i).raise i).frames.length - 1)
  have hget : w.frames[i]? = some f := hf
  have hperm :=
    (ZOrder.raise_perm (w.unminimize i).frames i).trans
      (ZOrder.modify_perm (fun f : Frame => { f with minimized := false }) hget)
  rw [Wm.showFrame, hframes] at h
  have hkept := h.perm hperm
  have hshown : ({ f with minimized := false } : Frame).shownMax = true := by
    simp [Frame.shownMax, hmax]
  have hfill := hkept.fills _ List.mem_cons_self hshown
  refine ⟨⟨hfill.ox, hfill.oy, hfill.cw, hfill.ch⟩, ?_⟩
  rw [← hflag, hkept.flag, List.any_cons, hshown, Bool.true_or]

theorem syncs_of_kept {op : WmOp} (h : p.Kept scr) (hafter : (panel scr p op).Kept scr) :
    Syncs scr p.desk op := by
  obtain ⟨⟨w, mode⟩, flag⟩ := p
  have hflag : flag = w.anyMaximized := h.flag
  cases op with
  | showFrame i => exact shows_of_kept hflag hafter
  | showKind kind =>
    intro i hpos
    have hshow : apply scr ⟨w, mode⟩ (.showKind kind) = ⟨w.showFrame i, mode⟩ := by
      rw [apply]
      dsimp only
      rw [Wm.ensureFrame, hpos]
    change Panel.Kept scr ⟨apply scr ⟨w, mode⟩ (.showKind kind), flag⟩ at hafter
    rw [hshow] at hafter
    exact shows_of_kept hflag hafter
  | restore i =>
    intro f hf hmax
    obtain ⟨hframes, -⟩ := focusFrame_frames ((w.unminimize i).raise i) i
    have hget : w.frames[i]? = some f := hf
    have hperm := (ZOrder.raise_perm (w.unminimize i).frames i).trans
      (ZOrder.modify_perm (fun f : Frame => { f with minimized := false }) hget)
    have hkept : KeptFrames scr (workH scr mode) (w.restoreMin i).frames (w.restoreMin i).drag
        (w.restoreMin i).anyMaximized := hafter
    rw [Wm.restoreMin, hframes] at hkept
    have hfill := (hkept.perm hperm).fills _ List.mem_cons_self (by simp [Frame.shownMax, hmax])
    exact ⟨hfill.ox, hfill.oy, hfill.cw, hfill.ch⟩
  | clientClose id =>
    intro i hpos f hf hshown
    obtain ⟨hframes, -⟩ := kept_closeFrame h hf
    change Panel.Kept scr ⟨apply scr ⟨w, mode⟩ (.clientClose id), flag⟩ at hafter
    have hclose : apply scr ⟨w, mode⟩ (.clientClose id) = ⟨w.closeFrame i, mode⟩ := by
      rw [apply]
      dsimp only
      rw [hpos]
    rw [hclose] at hafter
    have hrest : flag = (w.closeFrame i).frames.any Frame.shownMax := hafter.flag
    rw [hframes, hflag, Wm.anyMaximized, KeptFrames.any_split hf, hshown, Bool.true_or] at hrest
    exact hrest.symm
  | setFocus g => trivial
  | focusFrame i => trivial
  | raise i => trivial
  | minimize i => trivial
  | close i => trivial
  | toggleMax i => trivial
  | setMode m => trivial
  | drag g => trivial
  | follow cx cy => trivial

theorem along_append {C : Desk → WmOp → Prop} {ops ops' : List WmOp} {d : Desk} :
    Along scr C (ops ++ ops') d ↔ Along scr C ops d ∧ Along scr C ops' (run scr ops d) := by
  induction ops generalizing d with
  | nil => simp [Along]
  | cons op ops ih => simp only [List.cons_append, Along, ih, run_cons, and_assoc]

theorem fit_of_plain {op : WmOp} (h : op.plain = true) (d : Desk) : Fit d op := by
  cases op with
  | toggleMax i => cases h
  | drag g =>
    have hg : g = none := by simpa [plain] using h
    intro d' hd'
    rw [hg] at hd'
    cases hd'
  | _ => trivial

theorem along_plain {ops : List WmOp} (h : ∀ op ∈ ops, op.plain = true) (d : Desk) :
    Along scr Fit ops d := by
  induction ops generalizing d with
  | nil => trivial
  | cons op ops ih =>
    exact ⟨fit_of_plain (h op List.mem_cons_self) d,
      ih (fun o ho => h o (List.mem_cons_of_mem _ ho)) _⟩

theorem kept_panels (hscr : 200 ≤ scr.h) {ops : List WmOp} (h : p.Kept scr)
    (hfit : Along scr Fit ops p.desk) (hsync : Along scr (Syncs scr) ops p.desk) :
    (panels scr ops p).Kept scr := by
  induction ops generalizing p with
  | nil => exact h
  | cons op ops ih => exact ih (kept_panel hscr h hfit.1 hsync.1) hfit.2 hsync.2

end WmOp

namespace State

variable {φ η : Type} {fat : FatIo φ η} {scr : Screen} {r : Reply} {ev : Mouse}

section Fit

theorem panelClickOps_plain (h : PanelHit) (w : Wm) :
    ∀ op ∈ panelClickOps h w, op.plain = true := by
  cases h with
  | task k =>
    rw [panelClickOps, taskClickOps]
    split
    · simp
    · split_ifs <;> simp [WmOp.plain]
  | taskClose k =>
    rw [panelClickOps]
    cases w.taskFrame k <;> simp [WmOp.plain]
  | _ => simp [panelClickOps]

theorem clickClientOps_plain (i : ℕ) (f : Frame) :
    ∀ op ∈ clickClientOps ev i f, op.plain = true := by
  rw [clickClientOps]
  cases f.kind with
  | settings =>
    intro op hop
    rcases List.mem_append.mp hop with hop | hop
    · simp only [List.mem_cons, List.not_mem_nil, or_false] at hop
      rcases hop with rfl | rfl <;> rfl
    · exact actionOps_plain op hop
  | _ => simp [WmOp.plain]

theorem releaseOps_plain (st : State φ) : ∀ op ∈ st.releaseOps ev, op.plain = true := by
  rw [releaseOps]
  split_ifs <;> simp [WmOp.plain]

theorem beginDragOps_fit {f : Frame} (gx gy : ℤ) (edge : Option Edge) {d : Desk}
    (hnodup : d.wm.kinds.Nodup) (hf : f ∈ d.wm.frames) :
    WmOp.Along scr WmOp.Fit (beginDragOps f gx gy edge) d := by
  rw [beginDragOps]
  split
  · trivial
  · rename_i hmax
    refine ⟨fun d' hd' f' hf' hkind => ?_, trivial⟩
    obtain rfl := Option.some.inj hd'
    rw [List.inj_on_of_nodup_map hnodup hf' hf hkind]
    exact Bool.not_eq_true _ ▸ hmax

theorem clickFrameOps_fit (hit : Hit) {st : State φ} (hdrag : st.wm.drag = none)
    (hnodup : st.wm.kinds.Nodup) : WmOp.Along scr WmOp.Fit (st.clickFrameOps ev hit) st.desk := by
  rw [clickFrameOps]
  cases hf : st.wm.frames[hit.frame]? with
  | none => trivial
  | some f =>
    have hraised : ∀ i, f ∈ ((WmOp.raise i).apply scr st.desk).wm.frames := fun i =>
      (ZOrder.raise_perm st.wm.frames i).mem_iff.mpr (List.mem_of_getElem? hf)
    have hperm : ∀ i, ((WmOp.raise i).apply scr st.desk).wm.kinds.Nodup := fun i =>
      (Wm.kinds_raise st.wm i).nodup_iff.mpr hnodup
    cases hit with
    | close i =>
      dsimp only
      cases f.kind <;> exact WmOp.along_plain (by simp [WmOp.plain]) _
    | min i => exact WmOp.along_plain (by simp [WmOp.plain]) _
    | max i => exact ⟨hdrag, trivial⟩
    | title i =>
      refine ⟨trivial, ?_⟩
      split
      · exact ⟨hdrag, trivial⟩
      · exact beginDragOps_fit _ _ _ (hperm i) (hraised i)
    | resize i edge => exact ⟨trivial, beginDragOps_fit _ _ _ (hperm i) (hraised i)⟩
    | client i => exact WmOp.along_plain (clickClientOps_plain i f) _

theorem clickOps_fit (target : Target) {st : State φ} (hdrag : st.wm.drag = none)
    (hnodup : st.wm.kinds.Nodup) : WmOp.Along scr WmOp.Fit (st.clickOps scr ev target) st.desk := by
  cases target with
  | deskMenu =>
    refine WmOp.along_plain ?_ _
    rw [clickOps]
    split <;> simp [WmOp.plain]
  | runnerRow i => exact WmOp.along_plain (runnerLaunchOps_plain i st) _
  | launcherRow row => exact WmOp.along_plain (launchIndexOps_plain row _) _
  | panel =>
    refine WmOp.along_plain ?_ _
    rw [clickOps]
    split
    · exact panelClickOps_plain _ _
    · simp
  | frame hit => exact clickFrameOps_fit hit hdrag hnodup
  | confirm => trivial
  | filesMenu => trivial
  | runnerQuery => trivial
  | desktop => trivial

theorem mouseOps_fit {st : State φ} (hheld : st.btnHeld = false → st.wm.drag = none)
    (hnodup : st.wm.kinds.Nodup) : WmOp.Along scr WmOp.Fit (st.mouseOps scr ev fat) st.desk := by
  have hdrags : WmOp.Along scr WmOp.Fit (st.dragOps scr ev) st.desk :=
    WmOp.along_plain (dragOps_plain st) st.desk
  have hsettle : (st.settle scr ev).desk = _ := settle_desk st
  rw [mouseOps]
  dsimp only
  split
  · exact WmOp.along_append.mpr ⟨hdrags, WmOp.along_plain (rightClickOps_plain _) _⟩
  · split
    · rename_i hclick
      rw [isClick, Bool.and_eq_true, Bool.not_eq_true'] at hclick
      have hnone : (st.settle scr ev).wm.drag = none := settle_drag_none (hheld hclick.2)
      have hkinds : (st.settle scr ev).wm.kinds.Nodup := by
        have hwm := congrArg Desk.wm hsettle
        have hdrags : st.dragOps scr ev = [] := by
          have hcursor : (st.moveCursor scr ev).wm.drag = none := by
            rw [moveCursor]
            split <;> exact hheld hclick.2
          simp [dragOps, hcursor]
        rw [hdrags] at hwm
        change (st.settle scr ev).wm = st.wm at hwm
        rw [hwm]
        exact hnodup
      refine WmOp.along_append.mpr ⟨WmOp.along_append.mpr ⟨hdrags, ?_⟩, WmOp.along_plain ?_ _⟩
      · rw [← hsettle]
        exact clickOps_fit _ hnone hkinds
      · split
        · simp
        · exact releaseOps_plain _
    · exact WmOp.along_append.mpr ⟨hdrags, WmOp.along_plain (releaseOps_plain _) _⟩

theorem ops_fit {st : State φ} {e : Event φ} (hheld : st.btnHeld = false → st.wm.drag = none)
    (hnodup : st.wm.kinds.Nodup) : WmOp.Along scr WmOp.Fit (st.ops scr fat e) st.desk := by
  cases e with
  | irq key => trivial
  | key r =>
    rw [ops]
    cases st.keys.head? with
    | none => trivial
    | some k => exact WmOp.along_plain (keyOps_plain k st) _
  | mouse ev => exact mouseOps_fit hheld hnodup
  | clientCreate id cw ch ox oy => trivial
  | clientClose id => exact ⟨trivial, trivial⟩
  | volume m => trivial

theorem step_held {st st' : State φ} {e : Event φ} (hstep : step fat scr st e = some st')
    (hheld : st.btnHeld = false → st.wm.drag = none) :
    st'.btnHeld = false → st'.wm.drag = none := by
  cases he : e.isMouse with
  | false =>
    obtain ⟨hsame, hdrag⟩ := Pointer.step_other he hstep
    intro hb
    exact hdrag (hheld (hsame.symm.trans hb))
  | true =>
    cases e with
    | mouse ev =>
      cases hstep
      intro hb
      rw [pollMouse_btnHeld, Bool.or_eq_false_iff, Bool.and_eq_false_iff, Bool.not_eq_false'] at hb
      exact pollMouse_drag_none (by simp [isClick, hb.1]) (hb.2.imp_left hheld)
    | _ => cases he

end Fit

end State

/-- The compositor with `panel_opaque`. -/
structure PanelDesk (φ : Type) where
  st : State φ
  panelOpaque : Bool

namespace PanelDesk

variable {φ η : Type} (fat : FatIo φ η) (scr : Screen)

def step (s : PanelDesk φ) (e : Event φ) : Option (PanelDesk φ) :=
  match e with
  | .clientCreate id .. =>
    if (s.st.wm.position (.client id)).isSome then none else (s.st.step fat scr e).map fun st =>
      { s with st := st }
  | e =>
    (s.st.step fat scr e).map fun st =>
      ⟨st, (WmOp.panels scr (s.st.ops scr fat e) ⟨s.st.desk, s.panelOpaque⟩).panelOpaque⟩

def init (mode : PanelMode) (wall : Option Bytes) (m : Mount φ) : PanelDesk φ :=
  ⟨.init fat mode wall m, false⟩

/-- The flag is set exactly while a maximised frame is visible, and such a frame is the work
area. -/
structure TracksMax (s : PanelDesk φ) : Prop where
  flag : s.panelOpaque = true ↔ ∃ f ∈ s.st.wm.frames, f.maximized = true ∧ f.minimized = false
  fills :
    ∀ f ∈ s.st.wm.frames, f.maximized = true → f.minimized = false → f.Fills scr (s.st.work scr)

/-- No operation of the step leaves the panel behind. -/
def StepSyncs (t : Trans (PanelDesk φ) (Event φ)) : Prop :=
  WmOp.Along scr (WmOp.Syncs scr) (t.pre.st.ops scr fat t.act) t.pre.st.desk

structure Settled (s : PanelDesk φ) : Prop where
  kept : (Panel.mk s.st.desk s.panelOpaque).Kept scr
  held : s.st.btnHeld = false → s.st.wm.drag = none

variable {fat scr} {s : PanelDesk φ}

theorem Settled.tracks (h : s.Settled scr) : s.TracksMax scr := by
  refine ⟨?_, fun f hf hmax hmin => h.kept.fills f hf (by simp [Frame.shownMax, hmax, hmin])⟩
  have hflag : s.panelOpaque = s.st.wm.frames.any Frame.shownMax := h.kept.flag
  rw [hflag, List.any_eq_true]
  simp only [Frame.shownMax, Bool.and_eq_true, Bool.not_eq_true']

theorem settled_step (hscr : 200 ≤ scr.h) (t : Trans (PanelDesk φ) (Event φ))
    (hstep : step fat scr t.pre t.act = some t.post) (h : t.pre.Settled scr)
    (hsync : StepSyncs fat scr t) : t.post.Settled scr := by
  obtain ⟨s, e, s'⟩ := t
  have hnodup : s.st.wm.kinds.Nodup := h.kept.nodup
  have hother : e.creates = false →
      (s.st.step fat scr e).map (fun st => PanelDesk.mk st
        (WmOp.panels scr (s.st.ops scr fat e) ⟨s.st.desk, s.panelOpaque⟩).panelOpaque) = some s' →
      s'.Settled scr := by
    intro hc hs
    obtain ⟨st, hst, rfl⟩ := Option.map_eq_some_iff.mp hs
    refine ⟨?_, State.step_held hst h.held⟩
    have hkept := WmOp.kept_panels hscr h.kept (State.ops_fit h.held hnodup) hsync
    have hdesk := WmOp.panels_desk scr (s.st.ops scr fat e) ⟨s.st.desk, s.panelOpaque⟩
    rw [← State.step_ops hc hst] at hdesk
    rw [Panel.Kept, hdesk] at hkept
    exact hkept
  cases e with
  | clientCreate id cw ch ox oy =>
    simp only [step] at hstep
    split at hstep
    · cases hstep
    · rename_i hfresh
      cases hstep
      have hnew := position_none s.st.wm (Option.not_isSome_iff_eq_none.mp hfresh)
      exact ⟨h.kept.insert hnew rfl, h.held⟩
  | irq key => exact hother rfl hstep
  | key r => exact hother rfl hstep
  | mouse ev => exact hother rfl hstep
  | clientClose id => exact hother rfl hstep
  | volume m => exact hother rfl hstep

theorem init_settled (mode : PanelMode) (wall : Option Bytes) (m : Mount φ) :
    (init fat mode wall m).Settled scr :=
  ⟨⟨List.nodup_nil, nofun, rfl, nofun⟩, fun _ => rfl⟩

/-- Over a run whose operations all bring the panel up to date it is right in the end. -/
theorem panel_tracks {mode : PanelMode} {wall : Option Bytes} {m : Mount φ}
    {ts : List (Trans (PanelDesk φ) (Event φ))} (hscr : 200 ≤ scr.h)
    (h : Path (step fat scr) (init fat mode wall m) ts s) (hsync : ∀ t ∈ ts, StepSyncs fat scr t) :
    s.TracksMax scr :=
  (h.invariant (init_settled mode wall m) (settled_step hscr) hsync).tracks

section Sample

open State (listFat oneFile screen noReply pressBy openBoth)

instance (scr : Screen) (d : Desk) (i : ℕ) : Decidable (WmOp.Shows scr d i) := by
  unfold WmOp.Shows
  infer_instance

instance (scr : Screen) (d : Desk) (op : WmOp) : Decidable (WmOp.Syncs scr d op) := by
  cases op <;> unfold WmOp.Syncs <;> infer_instance

instance decAlong (scr : Screen) :
    ∀ (ops : List WmOp) (d : Desk), Decidable (WmOp.Along scr (WmOp.Syncs scr) ops d)
  | [], _ => .isTrue trivial
  | op :: ops, d => @instDecidableAnd _ _ _ (decAlong scr ops (op.apply scr d))

instance (t : Trans (PanelDesk φ) (Event φ)) : Decidable (StepSyncs fat scr t) := decAlong scr _ _

def letGo : Mouse := { pressBy 0 0 with leftDown := false, leftUp := true }

def hideMaximized : List (Event (List (Bytes × Bytes))) :=
  openBoth ++ [.mouse (pressBy 430 8), .mouse letGo, .mouse (pressBy 474 (-44)), .mouse letGo]

theorem restored_from_task_bar :
    ∃ ts s, Path (step listFat screen) (init listFat .float none oneFile) ts s ∧
    (∀ t ∈ ts, StepSyncs listFat screen t) ∧ s.TracksMax screen ∧ s.panelOpaque = true := by
  obtain ⟨⟨ts, s⟩, hrun, hp⟩ :=
    exists_path_of_replay (step listFat screen) (init listFat .float none oneFile)
    (hideMaximized ++ [.mouse { pressBy 0 0 with panel := .task 0 }])
    (fun r => (r.1.all fun t => decide (StepSyncs listFat screen t)) && r.2.panelOpaque) (by decide)
  simp only [Bool.and_eq_true, List.all_eq_true, decide_eq_true_eq] at hp
  exact ⟨ts, s, hrun, hp.1, panel_tracks (by decide) hrun hp.1, hp.2⟩

/-- The runner brings it back, and the panel is not told. -/
theorem shown_by_runner :
    ∃ ts s, Path (step listFat screen) (init listFat .float none oneFile) ts s ∧
    s.panelOpaque = false ∧ (∃ f ∈ s.st.wm.frames, f.maximized = true ∧ f.minimized = false) ∧
    ¬s.TracksMax screen := by
  obtain ⟨⟨ts, s⟩, hrun, hp⟩ :=
    exists_path_of_replay (step listFat screen) (init listFat .float none oneFile)
    (hideMaximized ++ [.irq .altSpace, .key noReply, .irq (.files .enter), .key noReply])
    (fun r => !r.2.panelOpaque && r.2.st.wm.frames.any fun f => f.maximized && !f.minimized)
    (by decide)
  simp only [Bool.and_eq_true, Bool.not_eq_true', List.any_eq_true] at hp
  obtain ⟨hflag, hup⟩ := hp
  refine ⟨ts, s, hrun, hflag, hup, fun htracks => ?_⟩
  rw [htracks.flag.mpr hup] at hflag
  cases hflag

end Sample

end PanelDesk

end CoeleoOs.Ui
