import CoeleoOs.Lib.TermRow
import CoeleoOs.Ui.Chrome

/-!
# Keys of the compositor

The interrupt handlers of the keyboard queue keys by what the flags say, and `apply_key`
applies a queued key later. A key that is not queued goes to the terminal, and one for a
client's window to the client; neither is part of this state.
-/

namespace CoeleoOs.Ui
open CoeleoOs.Fs
open CoeleoOs.Lib.TermRow (printable)
open CoeleoOs.Task (Bytes)

abbrev keyCap : ℕ := 16
abbrev queryCap : ℕ := 24
abbrev keyTab : UInt8 := 1
abbrev keyUp : UInt8 := 2
abbrev keyDown : UInt8 := 3
abbrev keyEnter : UInt8 := 4
abbrev keyBack : UInt8 := 5
abbrev keyEsc : UInt8 := 6
abbrev keyRunner : UInt8 := 7
abbrev keyLeft : UInt8 := 8
abbrev keyRight : UInt8 := 9
abbrev keyDel : UInt8 := 10
abbrev keyCopy : UInt8 := 11

inductive FilesKey
  | up | down | enter | backspace | left | right | delete
  deriving DecidableEq

inductive Key
  | tab | esc | altSpace
  | home | theEnd
  | files (key : FilesKey)
  | char (b : UInt8)

namespace State

variable {φ η : Type}

section Irq

-- A full queue drops the key.
def pushKey (k : UInt8) (st : State φ) : State φ :=
  if st.keys.length + 1 = keyCap then st else { st with keys := st.keys ++ [k] }

def irqTab (st : State φ) : State φ :=
  if st.menus.runnerOpen then st
  else if st.menus.launcherOpen || st.menus.powerDlg.isSome || st.menus.deskMenuOpen ||
    st.menus.filesMenuOpen || st.wm.clientTop || st.wm.focusFiles || st.wm.focusDesk
      then st.pushKey keyTab
  else st

def irqEsc (st : State φ) : State φ :=
  if st.menus.anyOpen || st.wm.clientTop || st.wm.focusFiles then st.pushKey keyEsc else st

def filesKeyCode (st : State φ) (key : FilesKey) : Bool × Option UInt8 :=
  if st.menus.powerDlg.isSome then
    match key with
    | .up | .down | .delete => (true, none)
    | .enter => (true, some keyEnter)
    | .backspace => (true, some keyEsc)
    | .left => (true, some keyLeft)
    | .right => (true, some keyRight)
  else if st.menus.runnerOpen then
    match key with
    | .up => (true, some keyUp)
    | .down => (true, some keyDown)
    | .enter => (true, some keyEnter)
    | .backspace => (true, some keyBack)
    | .left | .right | .delete => (true, none)
  else if st.menus.launcherOpen then
    match key with
    | .up => (true, some keyUp)
    | .down => (true, some keyDown)
    | .enter => (true, some keyEnter)
    | .backspace => (true, some keyEsc)
    | .left | .right | .delete => (true, none)
  else if st.menus.deskMenuOpen then
    match key with
    | .enter => (true, some keyEnter)
    | .backspace => (true, some keyEsc)
    | .up | .down | .left | .right | .delete => (true, none)
  else if st.menus.filesMenuOpen then
    match key with
    | .up => (true, some keyUp)
    | .down => (true, some keyDown)
    | .enter => (true, some keyEnter)
    | .backspace => (true, some keyEsc)
    | .left | .right | .delete => (true, none)
  else if st.wm.clientTop || st.wm.focusDesk then
    match key with
    | .up => (true, some keyUp)
    | .down => (true, some keyDown)
    | .enter => (true, some keyEnter)
    | .backspace => (true, some keyBack)
    | .left => (true, some keyLeft)
    | .right => (true, some keyRight)
    | .delete => (true, none)
  else if st.wm.focusFiles then
    match key with
    | .up => (true, some keyUp)
    | .down => (true, some keyDown)
    | .enter => (true, some keyEnter)
    | .backspace => (true, some keyBack)
    | .delete => (true, some keyDel)
    | .left => if st.fm.wantsArrows then (true, some keyLeft) else (false, none)
    | .right => if st.fm.wantsArrows then (true, some keyRight) else (false, none)
  else (false, none)

def irqFilesKey (key : FilesKey) (st : State φ) : State φ :=
  match (st.filesKeyCode key).2 with
  | some code => st.pushKey code
  | none => st

def irqChar (b : UInt8) (st : State φ) : State φ :=
  if st.menus.powerDlg.isSome then st
  else if st.menus.runnerOpen then if printable b then st.pushKey b else st
  else if !st.menus.anyOpen && st.wm.clientTop && printable b then st.pushKey b
  else if st.menus.launcherOpen then st
  else if st.wm.focusDesk then if printable b then st.pushKey b else st
  else if st.wm.focusFiles then
    if printable b then st.pushKey b else if b = 0x03 then st.pushKey keyCopy else st
  else st

def dispatch (key : Key) (st : State φ) : State φ :=
  match key with
  | .altSpace => st.pushKey keyRunner
  | .tab => st.irqTab
  | .esc => st.irqEsc
  | .home | .theEnd => st
  | .files key => st.irqFilesKey key
  | .char b =>
    if b = 0x0A ∨ b = 0x0D then st.irqFilesKey .enter
    else if b = 0x08 then st.irqFilesKey .backspace
    else if b = 0x1B then st.irqEsc
    else st.irqChar b

end Irq

variable (fat : FatIo φ η) (scr : Screen)

def saveCfg (st : State φ) : State φ :=
  let mode := match st.mode with | .float => appName "float" | .full => appName "full"
  let wall := st.wall.getD (appName "default")
  { st with
    mount :=
      (st.mount.writeFile fat.toFatfs (appName "/desk.cfg") (mode ++ 0x0A :: wall ++ [0x0A])).2 }

def applyPanelMode (m : PanelMode) (st : State φ) : State φ :=
  if m = st.mode then st
  else
    { st with
      mode := m
      wm := Wm.reflowMaximized scr (workH scr m) st.wm }

def applyDeskAction (r : Reply) (st : State φ) : State φ :=
  match r.action with
  | .none => st
  | .setMode m => (st.applyPanelMode scr m).saveCfg fat
  | .setWall path => if r.loads then { st with wall := path }.saveCfg fat else st

def applyKeyTab (st : State φ) : State φ :=
  st.setWm fun w =>
    if w.frames = [] then w.setFocus .term
    else w.showFrame ((w.visibleTop.getD 0 + 1) % w.frames.length)

def confirmKey (k : UInt8) (st : State φ) : State φ :=
  if k = keyEsc then st.setMenus .closePowerDlg
  else if k = keyLeft ∨ k = keyTab then st.setMenus fun s => { s with powerOk := !s.powerOk }
  else if k = keyRight then st.setMenus fun s => { s with powerOk := true }
  else if k = keyEnter then if st.menus.powerOk then st.confirmApply fat
    else st.setMenus .closePowerDlg
  else st

def runnerKey (k : UInt8) (st : State φ) : State φ :=
  if k = keyEsc then st.setMenus .closeRunner
  else if k = keyUp then st.setMenus fun s => { s with runnerSel := s.runnerSel - 1 }
  else if k = keyDown then
    st.setMenus fun s => if s.runnerSel + 1 < s.runnerList.length
      then { s with runnerSel := s.runnerSel + 1 } else s
  else if k = keyEnter then st.runnerLaunch scr st.menus.runnerSel
  else if k = keyBack then
    if st.menus.runnerQuery = [] then st
    else st.setMenus fun s => { s with runnerQuery := s.runnerQuery.dropLast }.runnerRefresh
      (st.entries fat)
  else if 32 ≤ k ∧ st.menus.runnerQuery.length < queryCap then
    st.setMenus fun s => { s with runnerQuery := s.runnerQuery ++ [k] }.runnerRefresh
      (st.entries fat)
  else st

def launcherKey (k : UInt8) (st : State φ) : State φ :=
  if k = keyEsc then st.setMenus .closeLauncher
  else if k = keyTab then (st.setMenus .closeLauncher).applyKeyTab
  else if k = keyUp then st.setMenus fun s => { s with launchSel := s.launchSel - 1 }
  else if k = keyDown then
    st.setMenus fun s => if s.launchSel + 1 < s.launchList.length + 2
      then { s with launchSel := s.launchSel + 1 } else s
  else if k = keyEnter then st.launchIndex scr st.menus.launchSel
  else st

def filesMenuKey (r : Reply) (k : UInt8) (st : State φ) : State φ :=
  if k = keyEsc then st.setMenus .closeFilesMenu
  else if k = keyEnter then st.filesMenuActivate fat r
  else if k = keyUp then st.setMenus fun s => { s with filesMenuSel := s.filesMenuSel - 1 }
  else if k = keyDown then
    st.setMenus fun s => if s.filesMenuSel + 1 < 3
      then { s with filesMenuSel := s.filesMenuSel + 1 } else s
  else st

def filesKey (r : Reply) (k : UInt8) (st : State φ) : State φ :=
  if k = keyTab then st.applyKeyTab
  else if k = keyDel then st.deleteSel fat
  else if k ∈ [keyLeft, keyRight, keyUp, keyDown, keyEnter, keyBack, keyEsc] ∨ 32 ≤ k
    then { st with fm := r.fm }
  else st

def applyKey (r : Reply) (k : UInt8) (st : State φ) : State φ :=
  if k = keyRunner then
    if st.menus.powerDlg.isSome then st
    else st.setMenus fun s => if s.runnerOpen then s.closeRunner else s.openRunner (st.entries fat)
  else if st.menus.powerDlg.isSome then st.confirmKey fat k
  else if st.menus.runnerOpen then st.runnerKey fat scr k
  else if st.menus.launcherOpen then st.launcherKey scr k
  else if st.menus.deskMenuOpen then
    if k = keyEsc then st.setMenus .closeDeskMenu
    else if k = keyEnter then st.deskMenuActivate scr
    else st
  else if st.menus.filesMenuOpen then st.filesMenuKey fat r k
  else
    match st.wm.topKind with
    | some (.client _) => if k = keyTab then st.applyKeyTab else st
    | some .settings => if k = keyTab then st.applyKeyTab else st.applyDeskAction fat scr r
    | _ => st.filesKey fat r k

end State

end CoeleoOs.Ui
