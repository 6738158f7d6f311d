import CoeleoOs.Ui.Comp

/-!
# Window operations

Each event of the compositor, but the creation of a client's window, does a few operations on
the frames, one after the other. The list of them is read off the state before the event, and
an invariant of the frames is proved once for each operation.
-/

namespace CoeleoOs.Ui
open CoeleoOs.Lib CoeleoOs.Lib.Machine CoeleoOs.Fs
open CoeleoOs.Task (Bytes)

/-- The frames, and the panel that leaves them their work area. -/
structure Desk where
  wm : Wm
  mode : PanelMode

inductive WmOp
  | setFocus (g : Focus)
  | focusFrame (i : ℕ)
  | raise (i : ℕ)
  | showFrame (i : ℕ)
  | showKind (kind : FrameKind)
  | minimize (i : ℕ)
  | restore (i : ℕ)
  | close (i : ℕ)
  | clientClose (id : ℕ)
  | toggleMax (i : ℕ)
  | setMode (m : PanelMode)
  | drag (d : Option Drag)
  | follow (cx cy : ℤ)

namespace WmOp

variable (scr : Screen)

def apply (d : Desk) : WmOp → Desk
  | setFocus g => { d with wm := d.wm.setFocus g }
  | focusFrame i => { d with wm := d.wm.focusFrame i }
  | raise i => { d with wm := d.wm.raise i }
  | showFrame i => { d with wm := d.wm.showFrame i }
  | showKind kind =>
    match Wm.ensureFrame scr d.mode d.wm kind with
    | none => d
    | some (w, i) => { d with wm := w.showFrame i }
  | minimize i => { d with wm := d.wm.minimizeFrame i }
  | restore i => { d with wm := d.wm.restoreMin i }
  | close i => { d with wm := d.wm.closeFrame i }
  | clientClose id =>
    match d.wm.position (.client id) with
    | none => d
    | some i => { d with wm := d.wm.closeFrame i }
  | toggleMax i => { d with wm := Wm.toggleMax scr (workH scr d.mode) d.wm i }
  | setMode m => if m = d.mode then d else ⟨Wm.reflowMaximized scr (workH scr m) d.wm, m⟩
  | drag g => { d with wm := { d.wm with drag := g } }
  | follow cx cy => { d with wm := Wm.applyDrag scr (workH scr d.mode) cx cy d.wm }

def run (ops : List WmOp) (d : Desk) : Desk := ops.foldl (apply scr) d

@[simp] theorem run_nil (d : Desk) : run scr [] d = d := rfl

@[simp] theorem run_cons (op : WmOp) (ops : List WmOp) (d : Desk) : run scr (op :: ops) d =
    run scr ops (op.apply scr d) := rfl

theorem run_append (ops ops' : List WmOp) (d : Desk) :
    run scr (ops ++ ops') d = run scr ops' (run scr ops d) :=
  List.foldl_append

theorem run_invariant {I : Desk → Prop} (hop : ∀ (op : WmOp) (d : Desk), I d → I (op.apply scr d))
    (ops : List WmOp) {d : Desk} (h : I d) : I (run scr ops d) := by
  induction ops generalizing d with
  | nil => exact h
  | cons op ops ih => exact ih (hop op d h)

end WmOp

def Event.creates {φ : Type} : Event φ → Bool
  | .clientCreate .. => true
  | _ => false

namespace State

variable {φ η : Type}

def desk (st : State φ) : Desk := ⟨st.wm, st.mode⟩

section Ops

variable (scr : Screen) (r : Reply) (ev : Mouse)

def launchOps (name : Bytes) : List WmOp :=
  if name = appName "sh" then [.showKind .vt]
  else if name = appName "files" then [.showKind .files]
  else if name = appName "settings" then [.showKind .settings]
  else if name = appName "edit" then [.showKind .vt]
  else []

def runnerLaunchOps (row : ℕ) (st : State φ) : List WmOp :=
  (st.menus.runnerList[row]?).elim [] launchOps

def launchIndexOps (row : ℕ) (st : State φ) : List WmOp :=
  if row = st.menus.launchList.length ∨ row = st.menus.launchList.length + 1 then []
  else (st.menus.launchList[row]?).elim [] launchOps

def taskClickOps (k : ℕ) (w : Wm) : List WmOp :=
  match w.taskFrame k with
  | none => []
  | some i =>
    if w.frames[i]?.any Frame.minimized then [.restore i]
    else if w.visibleTop = some i then [.minimize i]
    else [.raise i, .focusFrame i]

def panelClickOps (h : PanelHit) (w : Wm) : List WmOp :=
  match h with
  | .task k => taskClickOps k w
  | .taskClose k => (w.taskFrame k).elim [] fun i => [.close i]
  | _ => []

def tabOps (w : Wm) : List WmOp :=
  if w.frames = [] then [.setFocus .term]
    else [.showFrame ((w.visibleTop.getD 0 + 1) % w.frames.length)]

def actionOps : List WmOp :=
  match r.action with
  | .setMode m => [.setMode m]
  | _ => []

def keyOps (k : UInt8) (st : State φ) : List WmOp :=
  if k = keyRunner then []
  else if st.menus.powerDlg.isSome then []
  else if st.menus.runnerOpen then if k = keyEnter then st.runnerLaunchOps st.menus.runnerSel
    else []
  else if st.menus.launcherOpen then
    if k = keyTab then tabOps st.wm
    else if k = keyEnter then st.launchIndexOps st.menus.launchSel
    else []
  else if st.menus.deskMenuOpen then if k = keyEnter then [.showKind .settings] else []
  else if st.menus.filesMenuOpen then []
  else if k = keyTab then tabOps st.wm
  else if st.wm.topKind = some .settings then actionOps r
  else []

def dragOps (st : State φ) : List WmOp :=
  let st := st.moveCursor scr ev
  if st.wm.drag.isSome ∧ ev.moves ∧ (st.dragAt = 0 ∨ 2 ≤ ev.t - st.dragAt)
    then [.follow st.cx st.cy] else []

def beginDragOps (f : Frame) (gx gy : ℤ) (edge : Option Edge) : List WmOp :=
  if f.maximized then [] else [.drag (some ⟨f.kind, gx, gy, edge, f.ox, f.oy, f.cw, f.ch⟩)]

def clickTitleOps (i : ℕ) (f : Frame) (st : State φ) : List WmOp :=
  .raise i ::
    if st.titleClickKind = some f.kind ∧ ev.t - st.titleClickAt < 40
      then [.toggleMax (st.wm.frames.length - 1)]
        else beginDragOps f (st.cx - f.ox) (st.cy - f.oy) none

def clickClientOps (i : ℕ) (f : Frame) : List WmOp :=
  match f.kind with
  | .vt => [.raise i, .setFocus .term]
  | .files => [.raise i, .setFocus .files]
  | .settings => [.raise i, .setFocus .desk] ++ actionOps ev.reply
  | .client _ => [.raise i]

def clickFrameOps (hit : Hit) (st : State φ) : List WmOp :=
  match st.wm.frames[hit.frame]? with
  | none => []
  | some f =>
    match hit with
    | .close i =>
      match f.kind with
      | .client id => [.clientClose id]
      | _ => [.close i]
    | .min i => [.minimize i]
    | .max i => [.toggleMax i]
    | .title i => st.clickTitleOps ev i f
    | .resize i edge => .raise i :: beginDragOps f st.cx st.cy (some edge)
    | .client i => clickClientOps ev i f

def clickOps (st : State φ) : Target → List WmOp
  | .deskMenu => if ev.onDeskMenu then [.showKind .settings] else []
  | .runnerRow i => st.runnerLaunchOps i
  | .launcherRow row => (st.closeOutside scr ev).launchIndexOps row
  | .panel => if st.wm.drag.isNone then panelClickOps ev.panel st.wm else []
  | .frame hit => st.clickFrameOps ev hit
  | .confirm | .filesMenu | .runnerQuery | .desktop => []

def rightClickOps (st : State φ) : List WmOp :=
  if st.menus.anyOpen then []
  else if st.work scr ≤ st.y then []
  else
    match hitTest st.wm.frames st.x st.y with
    | some (.client i) =>
      if st.wm.frames[i]?.any fun f => f.kind = .files then [.raise i, .setFocus .files] else []
    | _ => []

def releaseOps (st : State φ) : List WmOp :=
  if ev.leftUp then (if st.wm.drag.isSome then [.follow st.cx st.cy] else []) ++ [.drag none]
    else []

def mouseOps (fat : FatIo φ η) (st : State φ) : List WmOp :=
  let click := st.isClick ev
  let drags := st.dragOps scr ev
  let st := st.settle scr ev
  if ev.rightDown ∧ st.wm.drag.isNone then drags ++ st.rightClickOps scr
  else if click then
    let target := st.target scr ev
    let r := st.clickOn fat scr ev target
    drags ++ st.clickOps scr ev target ++ if r.2 then [] else r.1.releaseOps ev
  else drags ++ st.releaseOps ev

def ops (fat : FatIo φ η) (st : State φ) : Event φ → List WmOp
  | .irq _ => []
  | .key r => st.keys.head?.elim [] fun k => st.keyOps r k
  | .mouse ev => st.mouseOps scr ev fat
  | .clientClose id => [.clientClose id]
  | .clientCreate .. | .volume _ => []

end Ops

section Traces

variable {fat : FatIo φ η} {scr : Screen} {r : Reply} {ev : Mouse}

theorem showKind_desk (kind : FrameKind) (st : State φ) :
    (st.showKind scr kind).desk = WmOp.run scr [.showKind kind] st.desk := by
  change _ = match Wm.ensureFrame scr st.mode st.wm kind with
    | none => st.desk
    | some (w, i) => ⟨w.showFrame i, st.mode⟩
  rw [showKind]
  rcases Wm.ensureFrame scr st.mode st.wm kind with _ | ⟨w, i⟩ <;> rfl

theorem launch_desk (name : Bytes) (st : State φ) :
    (st.launch scr name).desk = WmOp.run scr (launchOps name) st.desk := by
  rw [launch, launchOps, focusNamed]
  split_ifs
  all_goals first
    | exact showKind_desk _ st
    | rfl

theorem runnerLaunch_desk (row : ℕ) (st : State φ) :
    (st.runnerLaunch scr row).desk = WmOp.run scr (st.runnerLaunchOps row) st.desk := by
  rw [runnerLaunch, runnerLaunchOps]
  cases st.menus.runnerList[row]? with
  | none => rfl
  | some name => exact launch_desk name _

theorem launchIndex_desk (row : ℕ) (st : State φ) :
    (st.launchIndex scr row).desk = WmOp.run scr (st.launchIndexOps row) st.desk := by
  simp only [launchIndex, launchIndexOps]
  by_cases hreboot : row = st.menus.launchList.length
  · rw [if_pos hreboot, if_pos (.inl hreboot)]
    rfl
  by_cases hoff : row = st.menus.launchList.length + 1
  · rw [if_neg hreboot, if_pos hoff, if_pos (.inr hoff)]
    rfl
  rw [if_neg hreboot, if_neg hoff, if_neg (by simp [hreboot, hoff])]
  cases st.menus.launchList[row]? with
  | none => rfl
  | some name => exact launch_desk name _

theorem handlePanelClick_desk (h : PanelHit) (st : State φ) :
    (st.handlePanelClick fat h).desk = WmOp.run scr (panelClickOps h st.wm) st.desk := by
  cases h with
  | task k =>
    change Desk.mk (st.wm.handleTaskClick k) st.mode = _
    rw [Wm.handleTaskClick, panelClickOps, taskClickOps]
    cases st.wm.taskFrame k with
    | none => rfl
    | some i =>
      dsimp only
      split_ifs
      all_goals rfl
  | taskClose k =>
    change Desk.mk (st.wm.handleTaskClose k) st.mode = _
    rw [Wm.handleTaskClose, panelClickOps]
    cases st.wm.taskFrame k <;> rfl
  | launcher => rfl
  | krunner => rfl
  | clock => rfl
  | net => rfl
  | none => rfl

theorem applyDeskAction_desk (st : State φ) :
    (st.applyDeskAction fat scr r).desk = WmOp.run scr (actionOps r) st.desk := by
  rw [applyDeskAction, actionOps]
  cases r.action with
  | none => rfl
  | setMode m =>
    dsimp only
    rw [applyPanelMode]
    by_cases hm : m = st.mode
    · simp [hm, saveCfg, WmOp.apply, desk]
    · simp [hm, saveCfg, WmOp.apply, desk]
  | setWall path =>
    dsimp only
    split <;> rfl

theorem applyKeyTab_desk (st : State φ) :
    st.applyKeyTab.desk = WmOp.run scr (tabOps st.wm) st.desk := by
  rw [applyKeyTab, tabOps, setWm]
  split <;> rfl

theorem applyKey_desk (k : UInt8) (st : State φ) :
    (st.applyKey fat scr r k).desk = WmOp.run scr (st.keyOps r k) st.desk := by
  rw [applyKey, keyOps]
  by_cases hrun : k = keyRunner
  · rw [if_pos hrun, if_pos hrun]
    split <;> rfl
  rw [if_neg hrun, if_neg hrun]
  by_cases hpower : st.menus.powerDlg.isSome = true
  · rw [if_pos hpower, if_pos hpower, confirmKey]
    repeat' split
    all_goals rfl
  rw [if_neg hpower, if_neg hpower]
  by_cases hrunner : st.menus.runnerOpen = true
  · rw [if_pos hrunner, if_pos hrunner, runnerKey]
    by_cases henter : k = keyEnter
    · rw [henter]
      exact runnerLaunch_desk _ st
    · rw [if_neg henter]
      repeat' split
      all_goals rfl
  rw [if_neg hrunner, if_neg hrunner]
  by_cases hlauncher : st.menus.launcherOpen = true
  · rw [if_pos hlauncher, if_pos hlauncher, launcherKey]
    by_cases htab : k = keyTab
    · rw [htab]
      exact applyKeyTab_desk _
    by_cases henter : k = keyEnter
    · rw [henter]
      exact launchIndex_desk _ st
    · rw [if_neg htab, if_neg henter, if_neg htab, if_neg henter]
      repeat' split
      all_goals rfl
  rw [if_neg hlauncher, if_neg hlauncher]
  by_cases hdesk : st.menus.deskMenuOpen = true
  · rw [if_pos hdesk, if_pos hdesk]
    by_cases henter : k = keyEnter
    · rw [henter]
      exact showKind_desk _ _
    · rw [if_neg henter, if_neg henter]
      split <;> rfl
  rw [if_neg hdesk, if_neg hdesk]
  by_cases hfiles : st.menus.filesMenuOpen = true
  · rw [if_pos hfiles, if_pos hfiles, filesMenuKey, filesMenuActivate]
    repeat' split
    all_goals rfl
  rw [if_neg hfiles, if_neg hfiles]
  by_cases htab : k = keyTab
  · subst htab
    rw [if_pos rfl]
    rcases st.wm.topKind with _ | _ | _ | _ | id
    all_goals exact applyKeyTab_desk st
  have hother : (st.filesKey fat r k).desk = st.desk := by
    rw [filesKey, if_neg htab]
    split_ifs
    all_goals rfl
  simp only [if_neg htab]
  rcases st.wm.topKind with _ | _ | _ | _ | id
  · exact hother
  · exact hother
  · exact hother
  · exact applyDeskAction_desk st
  · rfl

theorem settle_desk (st : State φ) :
    (st.settle scr ev).desk = WmOp.run scr (st.dragOps scr ev) st.desk := by
  have hhover : ∀ s : State φ, (s.hover ev).desk = s.desk := by
    intro s
    rw [hover]
    split <;> rfl
  have hcursor : (st.moveCursor scr ev).desk = st.desk := by
    rw [moveCursor]
    split <;> rfl
  rw [settle, hhover, ← hcursor]
  change ((st.moveCursor scr ev).dragOn scr ev).desk = _
  rw [dragOn, dragOps]
  split <;> rfl

theorem beginDrag_desk (f : Frame) (gx gy : ℤ) (edge : Option Edge) (st : State φ) :
    (st.beginDrag f gx gy edge).desk = WmOp.run scr (beginDragOps f gx gy edge) st.desk := by
  rw [beginDrag, beginDragOps]
  split <;> rfl

theorem clickTitle_desk (i : ℕ) (f : Frame) (st : State φ) :
    (st.clickTitle scr ev i f).desk = WmOp.run scr (st.clickTitleOps ev i f) st.desk := by
  simp only [clickTitle, clickTitleOps, WmOp.run_cons]
  have hlen : (st.wm.raise i).frames.length = st.wm.frames.length := ZOrder.length_raise _ _
  change (if st.titleClickKind = some f.kind ∧ ev.t - st.titleClickAt < 40 then _
      else _ : State φ).desk = _
  split_ifs
  · rw [← hlen]
    rfl
  · exact beginDrag_desk ..

theorem clickClient_desk (i : ℕ) (f : Frame) (st : State φ) :
    (st.clickClient fat scr ev i f).1.desk = WmOp.run scr (clickClientOps ev i f) st.desk := by
  rw [clickClient, clickClientOps]
  cases f.kind with
  | vt => rfl
  | files => rfl
  | settings => exact applyDeskAction_desk _
  | client id => rfl

theorem onClientClose_desk (id : ℕ) (st : State φ) :
    (st.onClientClose id).desk = WmOp.run scr [.clientClose id] st.desk := by
  change _ = match st.wm.position (.client id) with
    | none => st.desk
    | some i => ⟨st.wm.closeFrame i, st.mode⟩
  rw [onClientClose]
  cases st.wm.position (.client id) <;> rfl

theorem clickFrame_desk (hit : Hit) (st : State φ) :
    (st.clickFrame fat scr ev hit).1.desk = WmOp.run scr (st.clickFrameOps ev hit) st.desk := by
  rw [clickFrame, clickFrameOps]
  cases st.wm.frames[hit.frame]? with
  | none => rfl
  | some f =>
    cases hit with
    | close i =>
      dsimp only
      cases f.kind with
      | client id => exact onClientClose_desk id st
      | _ => rfl
    | min i => rfl
    | max i => rfl
    | title i => exact clickTitle_desk i f st
    | resize i edge => exact beginDrag_desk ..
    | client i => exact clickClient_desk i f st

theorem closeOutside_eq (st : State φ) : ∃ m, st.closeOutside scr ev = { st with menus := m } := by
  simp only [closeOutside]
  repeat' split
  all_goals exact ⟨_, rfl⟩

theorem closeOutside_desk (st : State φ) : (st.closeOutside scr ev).desk = st.desk := by
  obtain ⟨m, hm⟩ : ∃ m, st.closeOutside scr ev = { st with menus := m } := closeOutside_eq st
  rw [hm]
  rfl

theorem clickOn_desk (target : Target) (st : State φ) :
    (st.clickOn fat scr ev target).1.desk = WmOp.run scr (st.clickOps scr ev target) st.desk := by
  have hout : (st.closeOutside scr ev).desk = st.desk := closeOutside_desk st
  cases target with
  | confirm =>
    change (st.handleConfirmClick fat ev.confirm).desk = st.desk
    unfold handleConfirmClick
    split <;> rfl
  | deskMenu =>
    rw [clickOn, handleDeskMenuClick, clickOps]
    split
    · exact showKind_desk _ _
    · rfl
  | filesMenu =>
    change (st.handleFilesMenuClick fat ev.reply ev.filesMenuRow ev.onFilesMenu).desk = st.desk
    simp only [handleFilesMenuClick, filesMenuActivate]
    repeat' split
    all_goals rfl
  | runnerRow i => exact runnerLaunch_desk i st
  | runnerQuery => rfl
  | launcherRow row =>
    rw [clickOps, ← hout]
    exact launchIndex_desk row _
  | panel =>
    have hwm : (st.closeOutside scr ev).wm = st.wm := congrArg Desk.wm hout
    rw [clickOn, clickOps]
    dsimp only
    rw [hwm]
    split
    · rw [handlePanelClick_desk, hwm, hout]
    · exact hout
  | frame hit =>
    obtain ⟨m, hm⟩ : ∃ m, st.closeOutside scr ev = { st with menus := m } := closeOutside_eq st
    rw [clickOn, clickFrame_desk, hout, hm]
    rfl
  | desktop => exact hout

theorem handleRightClick_desk (st : State φ) :
    (st.handleRightClick scr r).desk = WmOp.run scr (st.rightClickOps scr) st.desk := by
  rw [handleRightClick, rightClickOps]
  by_cases hpower : st.menus.powerDlg.isSome = true
  · rw [if_pos hpower, if_pos (by simp [Menus.anyOpen, hpower])]
    rfl
  by_cases hfiles : st.menus.filesMenuOpen = true
  · rw [if_neg hpower, if_pos hfiles, if_pos (by simp [Menus.anyOpen, hfiles])]
    rfl
  by_cases hdesk : st.menus.deskMenuOpen = true
  · rw [if_neg hpower, if_neg hfiles, if_pos hdesk, if_pos (by simp [Menus.anyOpen, hdesk])]
    rfl
  by_cases hlauncher : st.menus.launcherOpen = true
  · rw [if_neg hpower, if_neg hfiles, if_neg hdesk, if_pos hlauncher,
      if_pos (by simp [Menus.anyOpen, hlauncher])]
    rfl
  by_cases hrunner : st.menus.runnerOpen = true
  · rw [if_neg hpower, if_neg hfiles, if_neg hdesk, if_neg hlauncher, if_pos hrunner,
      if_pos (by simp [Menus.anyOpen, hrunner])]
    rfl
  have hclosed : ¬ st.menus.anyOpen = true := by
    simp [Menus.anyOpen, hpower, hfiles, hdesk, hlauncher, hrunner]
  rw [if_neg hpower, if_neg hfiles, if_neg hdesk, if_neg hlauncher, if_neg hrunner, if_neg hclosed]
  by_cases hwork : st.work scr ≤ st.y
  · rw [if_pos hwork, if_pos hwork]
    rfl
  rw [if_neg hwork, if_neg hwork]
  rcases hitTest st.wm.frames st.x st.y with _ | _ | _ | _ | _ | i | _
  case some.client =>
    dsimp only
    split
    · split <;> rfl
    · rfl
  all_goals rfl

theorem release_desk (st : State φ) :
    (st.release scr ev).desk = WmOp.run scr (st.releaseOps ev) st.desk := by
  rw [release, releaseOps]
  by_cases hup : ev.leftUp = true
  · rw [if_pos hup, if_pos hup]
    by_cases hdrag : st.wm.drag.isSome = true
    · rw [if_pos hdrag, if_pos hdrag]
      rfl
    · rw [if_neg hdrag, if_neg hdrag]
      rfl
  · rw [if_neg hup, if_neg hup]
    rfl

theorem pollMouse_desk (st : State φ) :
    (st.pollMouse fat scr ev).desk = WmOp.run scr (st.mouseOps scr ev fat) st.desk := by
  rw [pollMouse, mouseOps]
  have hs : (st.settle scr ev).desk = _ := settle_desk st
  dsimp only
  by_cases hright : ev.rightDown = true ∧ (st.settle scr ev).wm.drag.isNone = true
  · rw [if_pos hright, if_pos hright, WmOp.run_append, ← hs]
    exact handleRightClick_desk _
  rw [if_neg hright, if_neg hright]
  by_cases hclick : st.isClick ev = true
  · have hon : ((st.settle scr ev).clickOn fat scr ev ((st.settle scr ev).target scr ev)).1.desk =
        _ := clickOn_desk _ _
    rw [if_pos hclick, if_pos hclick, List.append_assoc, WmOp.run_append, WmOp.run_append,
      ← hs, ← hon]
    split
    · rfl
    · exact release_desk _
  · rw [if_neg hclick, if_neg hclick, WmOp.run_append, ← hs]
    exact release_desk _

theorem pushKey_eq (k : UInt8) (st : State φ) : ∃ ks, st.pushKey k = { st with keys := ks } := by
  rw [pushKey]
  split
  · exact ⟨_, rfl⟩
  · exact ⟨_, rfl⟩

theorem dispatch_eq (key : Key) (st : State φ) :
    ∃ ks, st.dispatch key = { st with keys := ks } := by
  have hsame : ∃ ks, st = { st with keys := ks } := ⟨st.keys, rfl⟩
  have hfiles : ∀ key, ∃ ks, st.irqFilesKey key = { st with keys := ks } := by
    intro key
    rw [irqFilesKey]
    split
    · exact pushKey_eq _ st
    · exact hsame
  have hesc : ∃ ks, st.irqEsc = { st with keys := ks } := by
    rw [irqEsc]
    split
    · exact pushKey_eq _ st
    · exact hsame
  cases key with
  | altSpace => exact pushKey_eq _ st
  | home => exact hsame
  | theEnd => exact hsame
  | esc => exact hesc
  | files key => exact hfiles key
  | tab =>
    rw [dispatch, irqTab]
    split
    · exact hsame
    · split
      · exact pushKey_eq _ st
      · exact hsame
  | char b =>
    have hchar : ∃ ks, st.irqChar b = { st with keys := ks } := by
      unfold irqChar
      repeat' split
      all_goals first
        | exact hsame
        | exact pushKey_eq _ st
    rw [dispatch]
    split
    · exact hfiles _
    · split
      · exact hfiles _
      · split
        · exact hesc
        · exact hchar

theorem step_ops {st st' : State φ} {e : Event φ} (he : e.creates = false)
    (h : step fat scr st e = some st') : st'.desk = WmOp.run scr (st.ops scr fat e) st.desk := by
  cases e with
  | irq key =>
    cases h
    obtain ⟨ks, hks⟩ := dispatch_eq key st
    rw [hks]
    rfl
  | key r =>
    rw [step] at h
    rw [ops]
    cases hkeys : st.keys with
    | nil =>
      rw [hkeys] at h
      cases h
    | cons k ks =>
      rw [hkeys] at h
      cases h
      exact applyKey_desk k { st with keys := ks }
  | mouse ev =>
    cases h
    exact pollMouse_desk st
  | clientCreate id cw ch ox oy => cases he
  | clientClose id =>
    cases h
    exact onClientClose_desk id st
  | volume m =>
    cases h
    rfl

end Traces

end State

end CoeleoOs.Ui
