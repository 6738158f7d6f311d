import CoeleoOs.Lib.Machine
import CoeleoOs.Ui.Keys

/-!
# The compositor

The mouse in a round of `poll`, the windows of clients that come and go, and the machine of
all these events in any order. Painting is left out, and so is what a client is told of the
mouse.
-/

namespace CoeleoOs.Ui
open CoeleoOs.Lib.Machine CoeleoOs.Fs
open CoeleoOs.Task (Bytes)

/-- A drained mouse event at tick `t`, with what the pointer is over once it has moved. -/
structure Mouse where
  dx : ℤ
  dy : ℤ
  leftDown : Bool
  leftUp : Bool
  rightDown : Bool
  t : ℕ
  confirm : ConfirmHit
  onDeskMenu : Bool
  onFilesMenu : Bool
  filesMenuRow : Option ℕ
  krunner : KrunnerHit
  onLauncher : Bool
  launcherRow : Option ℕ
  panel : PanelHit
  reply : Reply

def Mouse.moves (ev : Mouse) : Bool := ev.dx ≠ 0 ∨ ev.dy ≠ 0

/-- Where a click goes, by the order in which `poll` asks. -/
inductive Target
  | confirm | deskMenu | filesMenu
  | runnerRow (i : ℕ) | runnerQuery
  | launcherRow (row : ℕ)
  | panel
  | frame (hit : Hit)
  | desktop

namespace State

variable {φ η : Type} (fat : FatIo φ η) (scr : Screen)

section Mouse

def clampTo (v : ℤ) (size : ℕ) : ℤ := max 0 (min v (size - 1 : ℕ))

def moveCursor (ev : Mouse) (st : State φ) : State φ :=
  if ev.moves then
    { st with
      cx := clampTo (st.cx + ev.dx) scr.w
      cy := clampTo (st.cy + ev.dy) scr.h }
  else st

def follow (st : State φ) : State φ := st.setWm (Wm.applyDrag scr (st.work scr) st.cx st.cy)

def dragOn (ev : Mouse) (st : State φ) : State φ :=
  if st.wm.drag.isSome ∧ ev.moves ∧ (st.dragAt = 0 ∨ 2 ≤ ev.t - st.dragAt) then
    { st with dragAt := max ev.t 1 }.follow scr
  else st

def hover (ev : Mouse) (st : State φ) : State φ :=
  if st.wm.drag.isNone ∧ ev.moves then
    st.setMenus fun s =>
      { s with
        launchSel := if s.launcherOpen then ev.launcherRow.getD s.launchSel else s.launchSel
        runnerSel := match s.runnerOpen, ev.krunner with | true, .row i => i | _, _ => s.runnerSel
        filesMenuSel :=
          if s.filesMenuOpen then ev.filesMenuRow.getD s.filesMenuSel else s.filesMenuSel }
  else st

def isClick (ev : Mouse) (st : State φ) : Bool := ev.leftDown && !st.btnHeld

def holdButton (ev : Mouse) (st : State φ) : State φ :=
  { st with btnHeld := ev.leftDown || (st.btnHeld && !ev.leftUp) }

def x (st : State φ) : ℕ := st.cx.toNat

def y (st : State φ) : ℕ := st.cy.toNat

def settle (ev : Mouse) (st : State φ) : State φ :=
  ((st.moveCursor scr ev).dragOn scr ev |>.holdButton ev).hover ev

def target (ev : Mouse) (st : State φ) : Target :=
  if st.menus.powerDlg.isSome then .confirm
  else if st.menus.deskMenuOpen then .deskMenu
  else if st.menus.filesMenuOpen then .filesMenu
  else
    let runner : Option Target :=
      match st.menus.runnerOpen, ev.krunner with
      | true, .row i => some (.runnerRow i)
      | true, .query => some .runnerQuery
      | _, _ => none
    let launcher : Option Target :=
      if st.menus.launcherOpen then ev.launcherRow.map .launcherRow else none
    (runner.or launcher).getD <|
      if ev.panel ≠ .none ∨ st.work scr ≤ st.y then .panel
      else
        match hitTest st.wm.frames st.x st.y with
        | some hit => .frame hit
        | none => .desktop

def closeOutside (ev : Mouse) (st : State φ) : State φ :=
  let st :=
    match st.menus.runnerOpen, ev.krunner with
    | true, .outside => if st.y < st.work scr then st.setMenus .closeRunner else st
    | _, _ => st
  if st.menus.launcherOpen ∧ st.y < st.work scr ∧ ev.launcherRow = none ∧ ev.onLauncher = false then
    st.setMenus .closeLauncher
  else st

def beginDrag (f : Frame) (gx gy : ℤ) (edge : Option Edge) (st : State φ) : State φ :=
  if f.maximized then st
  else
    { st with
      dragAt := 0
      wm := { st.wm with drag := some ⟨f.kind, gx, gy, edge, f.ox, f.oy, f.cw, f.ch⟩ } }

def clickTitle (ev : Mouse) (i : ℕ) (f : Frame) (st : State φ) : State φ :=
  let st := st.setWm fun w => w.raise i
  if st.titleClickKind = some f.kind ∧ ev.t - st.titleClickAt < 40 then
    { st with
      titleClickKind := none }.setWm fun w => Wm.toggleMax scr (st.work scr) w (w.frames.length - 1)
  else
    { st with
      titleClickAt := ev.t
      titleClickKind := some f.kind }.beginDrag f (st.cx - f.ox) (st.cy - f.oy) none

def clickEdge (i : ℕ) (f : Frame) (edge : Edge) (st : State φ) : State φ :=
  (st.setWm fun w => w.raise i).beginDrag f st.cx st.cy (some edge)

def clickClient (ev : Mouse) (i : ℕ) (f : Frame) (st : State φ) : State φ × Bool :=
  match f.kind with
  | .vt => (st.setWm fun w => (w.raise i).setFocus .term, false)
  | .files => ({ st with fm := ev.reply.fm }.setWm fun w => (w.raise i).setFocus .files, true)
  | .settings =>
    ((st.setWm fun w => (w.raise i).setFocus .desk).applyDeskAction fat scr ev.reply, true)
  | .client _ => (st.setWm fun w => w.raise i, false)

def onClientClose (id : ℕ) (st : State φ) : State φ :=
  match st.wm.position (.client id) with
  | none => st
  | some i => st.setWm fun w => w.closeFrame i

def clickFrame (ev : Mouse) (hit : Hit) (st : State φ) : State φ × Bool :=
  match st.wm.frames[hit.frame]? with
  | none => (st, false)
  | some f =>
    match hit with
    | .close i =>
      match f.kind with
      | .client id => (st.onClientClose id, true)
      | _ => (st.setWm fun w => w.closeFrame i, false)
    | .min i => (st.setWm fun w => w.minimizeFrame i, false)
    | .max i => (st.setWm fun w => Wm.toggleMax scr (st.work scr) w i, false)
    | .title i => (st.clickTitle scr ev i f, false)
    | .resize i edge => (st.clickEdge i f edge, false)
    | .client i => st.clickClient fat scr ev i f

def clickOn (ev : Mouse) (st : State φ) : Target → State φ × Bool
  | .confirm => (st.handleConfirmClick fat ev.confirm, true)
  | .deskMenu => (st.handleDeskMenuClick scr ev.onDeskMenu, true)
  | .filesMenu => (st.handleFilesMenuClick fat ev.reply ev.filesMenuRow ev.onFilesMenu, true)
  | .runnerRow i => (st.runnerLaunch scr i, true)
  | .runnerQuery => (st, true)
  | .launcherRow row => ((st.closeOutside scr ev).launchIndex scr row, true)
  | .panel =>
    let st := st.closeOutside scr ev
    (if st.wm.drag.isNone then st.handlePanelClick fat ev.panel else st, false)
  | .frame hit => (st.closeOutside scr ev).clickFrame fat scr ev hit
  | .desktop => (st.closeOutside scr ev, false)

def handleRightClick (r : Reply) (st : State φ) : State φ :=
  if st.menus.powerDlg.isSome then st
  else if st.menus.filesMenuOpen then st.setMenus .closeFilesMenu
  else if st.menus.deskMenuOpen then st.setMenus .closeDeskMenu
  else if st.menus.launcherOpen then st.setMenus .closeLauncher
  else if st.menus.runnerOpen then st.setMenus .closeRunner
  else if st.work scr ≤ st.y then st
  else
    match hitTest st.wm.frames st.x st.y with
    | none => st.setMenus .openDeskMenu
    | some (.client i) =>
      if st.wm.frames[i]?.any fun f => f.kind = .files then
        let st := { st with fm := r.fm }.setWm fun w => (w.raise i).setFocus .files
        if r.onRow then st.setMenus .openFilesMenu else st
      else st
    | some _ => st

def release (ev : Mouse) (st : State φ) : State φ :=
  if ev.leftUp then
    let st := if st.wm.drag.isSome then st.follow scr else st
    { st with dragAt := 0 }.setWm fun w => { w with drag := none }
  else st

def pollMouse (ev : Mouse) (st : State φ) : State φ :=
  let click := st.isClick ev
  let st := st.settle scr ev
  if ev.rightDown ∧ st.wm.drag.isNone then st.handleRightClick scr ev.reply
  else
    let r := if click then st.clickOn fat scr ev (st.target scr ev) else (st, false)
    if r.2 then r.1 else r.1.release scr ev

end Mouse

def onClientCreate (id cw ch ox oy : ℕ) (st : State φ) : State φ :=
  st.setWm fun w =>
    (({ w with
      frames := w.frames ++ [frameNew (.client id) ox oy cw ch] }).setFocus .term).syncClientTop

end State

inductive Event (φ : Type)
  /-- A key press in an interrupt. -/
  | irq (key : Key)
  /-- `poll` takes the oldest key of the queue. -/
  | key (r : Reply)
  | mouse (ev : Mouse)
  | clientCreate (id cw ch ox oy : ℕ)
  | clientClose (id : ℕ)
  /-- Another task has written to the volume. -/
  | volume (m : Mount φ)

namespace State

variable {φ η : Type} (fat : FatIo φ η) (scr : Screen)

def step (st : State φ) : Event φ → Option (State φ)
  | .irq key => some (st.dispatch key)
  | .key r =>
    match st.keys with
    | [] => none
    | k :: ks => some ({ st with keys := ks }.applyKey fat scr r k)
  | .mouse ev => some (st.pollMouse fat scr ev)
  | .clientCreate id cw ch ox oy => some (st.onClientCreate id cw ch ox oy)
  | .clientClose id => some (st.onClientClose id)
  | .volume m => some { st with mount := m }

def init (mode : PanelMode) (wall : Option Bytes) (m : Mount φ) : State φ where
  wm := .init
  menus := .init
  mode := mode
  wall := wall
  cx := 56
  cy := 56
  dragAt := 0
  btnHeld := false
  titleClickAt := 0
  titleClickKind := none
  keys := []
  fm := .init fat.toFatfs m
  mount := m
  deleted := []

end State

end CoeleoOs.Ui
