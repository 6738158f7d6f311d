import CoeleoOs.Lib.Text
import CoeleoOs.Ui.Fm
import CoeleoOs.Ui.Frames

/-!
# Panel, launcher and menus

The state of the compositor and the functions of `chrome.rs`. The panel and the popups lie
where the width of their texts puts them, in a font that the build generates; what the
pointer is over comes with each mouse event. The atomic next to each popup is written
together with it, and one copy is kept. A started program is not part of this state.
-/

namespace CoeleoOs.Ui
open CoeleoOs.Lib.Text CoeleoOs.Fs
open CoeleoOs.Task (Bytes)

inductive PowerKind
  | reboot | powerOff
  deriving DecidableEq

inductive PanelHit
  | none | launcher | krunner | clock | net
  | task (k : ℕ) | taskClose (k : ℕ)
  deriving DecidableEq

inductive ConfirmHit
  | cancel | ok | body | outside

inductive KrunnerHit
  | outside | query
  | row (i : ℕ)

structure Menus where
  launcherOpen : Bool
  launchSel : ℕ
  launchList : List Bytes
  runnerOpen : Bool
  runnerQuery : Bytes
  runnerSel : ℕ
  runnerList : List Bytes
  deskMenuOpen : Bool
  filesMenuOpen : Bool
  filesMenuSel : ℕ
  powerDlg : Option PowerKind
  powerOk : Bool

structure State (φ : Type) where
  wm : Wm
  menus : Menus
  mode : PanelMode
  /-- The path of the wallpaper, if it is not the built-in one. -/
  wall : Option Bytes
  cx : ℤ
  cy : ℤ
  dragAt : ℕ
  btnHeld : Bool
  titleClickAt : ℕ
  titleClickKind : Option FrameKind
  /-- `KEY_Q`, oldest key first. -/
  keys : List UInt8
  fm : Fm
  mount : Mount φ
  /-- The lines `fm: deleted`, newest first. -/
  deleted : List Bytes

inductive DeskAction
  | none
  | setMode (m : PanelMode)
  | setWall (path : Option Bytes)

/-- What the file manager and the settings make of a click or a key, where they are asked:
the panel afterwards, whether a row was hit, and the action of the settings with whether
its wallpaper can be loaded. -/
structure Reply where
  fm : Fm
  onRow : Bool
  action : DeskAction
  loads : Bool

def appName (s : String) : Bytes := utf8 s.toList

def launchNames : List Bytes := ["hello", "widgets", "winprobe", "install", "edit"].map appName

def pushUnique (found : List Bytes) (name : Bytes) : List Bytes :=
  if name ∈ found then found else found ++ [name]

def launcherEntries {φ η : Type} (fat : Fatfs φ η) (m : Mount φ) : List Bytes :=
  let found := ["files", "sh", "settings"].map appName
  let found :=
    match m.list fat [slash] with
    | .error _ => found
    | .ok ents =>
      ents.foldl (fun found e => if !e.isDir ∧ e.name ∈ launchNames then pushUnique found e.name
        else found) found
  match m.list fat (appName "/bin") with
  | .error _ => found
  | .ok ents => ents.foldl (fun found e => if e.isDir then found else pushUnique found e.name) found

def label (name : Bytes) : Bytes :=
  let names := [("files", "Files"), ("sh", "Terminal"), ("hello", "Hello"), ("widgets", "Widgets"),
    ("winprobe", "Winprobe"), ("install", "Install Coeleo"), ("edit", "Edit")]
  match names.find? fun n => name = appName n.1 with
  | some n => appName n.2
  | none => name

def containsCi (hay needle : Bytes) : Bool := needle.map asciiLower <:+: hay.map asciiLower

def krunnerFilter (names : List Bytes) (query : Bytes) : List Bytes :=
  names.filter fun n => containsCi n query || containsCi (label n) query

namespace Menus

def init : Menus := ⟨false, 0, [], false, [], 0, [], false, false, 0, none, false⟩

def closeLauncher (s : Menus) : Menus :=
  if s.launcherOpen then { s with launcherOpen := false, launchList := [] } else s

def closeRunner (s : Menus) : Menus :=
  if s.runnerOpen then { s with runnerOpen := false, runnerQuery := [], runnerList := [] } else s

def closeDeskMenu (s : Menus) : Menus := { s with deskMenuOpen := false }

def closeFilesMenu (s : Menus) : Menus := { s with filesMenuOpen := false }

def openLauncher (entries : List Bytes) (s : Menus) : Menus :=
  { s.closeRunner.closeDeskMenu with
    launchList := entries
    launchSel := 0
    launcherOpen := true }

def openRunner (entries : List Bytes) (s : Menus) : Menus :=
  { s.closeLauncher.closeDeskMenu with
    runnerQuery := []
    runnerList := krunnerFilter entries []
    runnerSel := 0
    runnerOpen := true }

def openDeskMenu (s : Menus) : Menus :=
  { s.closeFilesMenu.closeLauncher.closeRunner with deskMenuOpen := true }

def openFilesMenu (s : Menus) : Menus :=
  { s.closeDeskMenu.closeLauncher.closeRunner with
    filesMenuSel := 0
    filesMenuOpen := true }

def runnerRefresh (entries : List Bytes) (s : Menus) : Menus :=
  let list := krunnerFilter entries s.runnerQuery
  { s with
    runnerList := list
    runnerSel := if list = [] then 0 else min s.runnerSel (list.length - 1) }

def openPowerDlg (kind : PowerKind) (s : Menus) : Menus :=
  { s.closeLauncher.closeRunner.closeDeskMenu with
    powerDlg := some kind
    powerOk := false }

def closePowerDlg (s : Menus) : Menus :=
  { s with
    powerDlg := none
    powerOk := if s.powerDlg.isSome then false else s.powerOk }

def anyOpen (s : Menus) : Bool :=
  s.powerDlg.isSome || s.runnerOpen || s.launcherOpen || s.deskMenuOpen || s.filesMenuOpen

end Menus

namespace Wm

def taskFrames (w : Wm) : List ℕ :=
  (w.position .files).toList ++ (w.position .settings).toList ++ (w.position .vt).toList ++
    (List.range w.frames.length).filter fun i => w.frames[i]?.any fun f => isClient f.kind

def taskFrame (w : Wm) (k : ℕ) : Option ℕ := w.taskFrames[k]?

def handleTaskClick (k : ℕ) (w : Wm) : Wm :=
  match w.taskFrame k with
  | none => w
  | some i =>
    if w.frames[i]?.any Frame.minimized then w.restoreMin i
    else if w.visibleTop = some i then w.minimizeFrame i
    -- `i` is the index from before the frame was raised.
    else (w.raise i).focusFrame i

def handleTaskClose (k : ℕ) (w : Wm) : Wm :=
  match w.taskFrame k with
  | none => w
  | some i => w.closeFrame i

end Wm

namespace State

variable {φ η : Type} (fat : FatIo φ η) (scr : Screen)

def setMenus (st : State φ) (g : Menus → Menus) : State φ := { st with menus := g st.menus }

def setWm (st : State φ) (g : Wm → Wm) : State φ := { st with wm := g st.wm }

def entries (st : State φ) : List Bytes := launcherEntries fat.toFatfs st.mount

def work (st : State φ) : ℕ := workH scr st.mode

def deleteSel (st : State φ) : State φ :=
  let r := st.fm.deleteSel fat st.mount
  { st with
    mount := r.2.1
    fm := r.2.2
    deleted := r.1.toList ++ st.deleted }

def showKind (kind : FrameKind) (st : State φ) : State φ :=
  match Wm.ensureFrame scr st.mode st.wm kind with
  | none => st
  | some (w, i) => { st with wm := w.showFrame i }

def focusNamed (name : Bytes) (st : State φ) : Option (State φ) :=
  if name = appName "sh" then some (st.showKind scr .vt)
  else if name = appName "files" then some (st.showKind scr .files)
  else if name = appName "settings" then some (st.showKind scr .settings)
  else none

def launch (name : Bytes) (st : State φ) : State φ :=
  match st.focusNamed scr name with
  | some st => st
  | none => if name = appName "edit" then st.showKind scr .vt else st

def runnerLaunch (row : ℕ) (st : State φ) : State φ :=
  match st.menus.runnerList[row]? with
  | none => st
  | some name => (st.setMenus .closeRunner).launch scr name

def launchIndex (row : ℕ) (st : State φ) : State φ :=
  let n := st.menus.launchList.length
  if row = n then st.setMenus (.openPowerDlg .reboot)
  else if row = n + 1 then st.setMenus (.openPowerDlg .powerOff)
  else
    match st.menus.launchList[row]? with
    | none => st.setMenus .closeLauncher
    | some name => (st.setMenus .closeLauncher).launch scr name

def handlePanelClick (h : PanelHit) (st : State φ) : State φ :=
  match h with
  | .launcher =>
    st.setMenus fun s => if s.launcherOpen then s.closeLauncher else s.openLauncher (st.entries fat)
  | .krunner =>
    st.setMenus fun s => if s.runnerOpen then s.closeRunner else s.openRunner (st.entries fat)
  | .task k => (st.setMenus fun s => s.closeLauncher.closeRunner).setWm (.handleTaskClick k)
  | .taskClose k => (st.setMenus fun s => s.closeLauncher.closeRunner).setWm (.handleTaskClose k)
  | .clock | .net | .none => st.setMenus fun s => s.closeLauncher.closeRunner.closeDeskMenu

def deskMenuActivate (st : State φ) : State φ := (st.setMenus .closeDeskMenu).showKind scr .settings

def handleDeskMenuClick (onMenu : Bool) (st : State φ) : State φ :=
  if onMenu then st.deskMenuActivate scr else st.setMenus .closeDeskMenu

def filesMenuActivate (r : Reply) (st : State φ) : State φ :=
  let flags := st.fm.menuFlags
  let row := st.menus.filesMenuSel
  let st := st.setMenus .closeFilesMenu
  if row = 0 ∧ flags.canOpen then { st with fm := r.fm }
  else if row = 1 ∧ flags.canUp then { st with fm := r.fm }
  else if row = 2 ∧ flags.canDelete then st.deleteSel fat
  else st

def handleFilesMenuClick (r : Reply) (row : Option ℕ) (onMenu : Bool) (st : State φ) : State φ :=
  match row with
  | some i => (st.setMenus fun s => { s with filesMenuSel := i }).filesMenuActivate fat r
  | none => if onMenu then st else st.setMenus .closeFilesMenu

-- The volume is flushed; then the machine stops, or goes on if the firmware does not do it.
def confirmApply (st : State φ) : State φ :=
  let st := st.setMenus .closePowerDlg
  { st with mount := (st.mount.sync fat).2 }

def handleConfirmClick (h : ConfirmHit) (st : State φ) : State φ :=
  match h with
  | .cancel | .outside => st.setMenus .closePowerDlg
  | .ok => st.confirmApply fat
  | .body => st

end State

end CoeleoOs.Ui
