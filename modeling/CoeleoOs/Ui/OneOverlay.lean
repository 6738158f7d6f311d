import CoeleoOs.Ui.Flags
import CoeleoOs.Ui.FocusTop

/-!
# One overlay at a time

What each event opens and closes, and the machine in which the interrupt of the keyboard reads
the flags.
-/

namespace CoeleoOs.Ui
open CoeleoOs.Lib CoeleoOs.Lib.Machine CoeleoOs.Fs
open CoeleoOs.Task (Bytes)

namespace State

variable {φ η : Type}

section MenuOps

variable (fat : FatIo φ η) (scr : Screen) (r : Reply) (ev : Mouse)

def runnerLaunchMenus (row : ℕ) (st : State φ) : List MenuOp :=
  (st.menus.runnerList[row]?).elim [] fun _ => [.closeRunner]

def launchIndexMenus (row : ℕ) (st : State φ) : List MenuOp :=
  if row = st.menus.launchList.length then [.openPowerDlg .reboot]
  else if row = st.menus.launchList.length + 1 then [.openPowerDlg .powerOff]
  else [.closeLauncher]

def panelClickMenus (h : PanelHit) (st : State φ) : List MenuOp :=
  match h with
  | .launcher =>
    if st.menus.launcherOpen then [.closeLauncher] else [.openLauncher (st.entries fat)]
  | .krunner => if st.menus.runnerOpen then [.closeRunner] else [.openRunner (st.entries fat)]
  | .task _ | .taskClose _ => [.closeLauncher, .closeRunner]
  | .clock | .net | .none => [.closeLauncher, .closeRunner, .closeDeskMenu]

def confirmKeyMenus (k : UInt8) (st : State φ) : List MenuOp :=
  if k = keyEsc then [.closePowerDlg]
  else if k = keyLeft ∨ k = keyTab then [.powerOk !st.menus.powerOk]
  else if k = keyRight then [.powerOk true]
  else if k = keyEnter then [.closePowerDlg]
  else []

def runnerKeyMenus (k : UInt8) (st : State φ) : List MenuOp :=
  if k = keyEsc then [.closeRunner]
  else if k = keyUp then [.runnerSel (st.menus.runnerSel - 1)]
  else if k = keyDown then if st.menus.runnerSel + 1 < st.menus.runnerList.length
    then [.runnerSel (st.menus.runnerSel + 1)] else []
  else if k = keyEnter then st.runnerLaunchMenus st.menus.runnerSel
  else if k = keyBack then
    if st.menus.runnerQuery = [] then []
      else [.query st.menus.runnerQuery.dropLast (st.entries fat)]
  else if 32 ≤ k ∧ st.menus.runnerQuery.length < queryCap
    then [.query (st.menus.runnerQuery ++ [k]) (st.entries fat)]
  else []

def launcherKeyMenus (k : UInt8) (st : State φ) : List MenuOp :=
  if k = keyEsc then [.closeLauncher]
  else if k = keyTab then [.closeLauncher]
  else if k = keyUp then [.launchSel (st.menus.launchSel - 1)]
  else if k = keyDown then
    if st.menus.launchSel + 1 < st.menus.launchList.length + 2
      then [.launchSel (st.menus.launchSel + 1)] else []
  else if k = keyEnter then st.launchIndexMenus st.menus.launchSel
  else []

def filesMenuKeyMenus (k : UInt8) (st : State φ) : List MenuOp :=
  if k = keyEsc then [.closeFilesMenu]
  else if k = keyEnter then [.closeFilesMenu]
  else if k = keyUp then [.filesMenuSel (st.menus.filesMenuSel - 1)]
  else if k = keyDown then if st.menus.filesMenuSel + 1 < 3
    then [.filesMenuSel (st.menus.filesMenuSel + 1)] else []
  else []

def keyMenus (k : UInt8) (st : State φ) : List MenuOp :=
  if k = keyRunner then
    if st.menus.powerDlg.isSome then []
    else if st.menus.runnerOpen then [.closeRunner]
    else [.openRunner (st.entries fat)]
  else if st.menus.powerDlg.isSome then st.confirmKeyMenus k
  else if st.menus.runnerOpen then st.runnerKeyMenus fat k
  else if st.menus.launcherOpen then st.launcherKeyMenus k
  else if st.menus.deskMenuOpen then if k = keyEsc ∨ k = keyEnter then [.closeDeskMenu] else []
  else if st.menus.filesMenuOpen then st.filesMenuKeyMenus k
  else []

def hoverMenus (st : State φ) : List MenuOp :=
  if st.wm.drag.isNone ∧ ev.moves then
    [.launchSel (if st.menus.launcherOpen then ev.launcherRow.getD st.menus.launchSel
        else st.menus.launchSel),
      .runnerSel (match st.menus.runnerOpen, ev.krunner with
        | true, .row i => i
        | _, _ => st.menus.runnerSel),
      .filesMenuSel (if st.menus.filesMenuOpen then ev.filesMenuRow.getD st.menus.filesMenuSel
        else st.menus.filesMenuSel)]
  else []

def closeOutsideMenus (st : State φ) : List MenuOp :=
  (match st.menus.runnerOpen, ev.krunner with
    | true, .outside => if st.y < st.work scr then [.closeRunner] else []
    | _, _ => []) ++
  if st.menus.launcherOpen ∧ st.y < st.work scr ∧ ev.launcherRow = none ∧ ev.onLauncher = false
    then [.closeLauncher] else []

def confirmMenus (h : ConfirmHit) : List MenuOp :=
  match h with
  | .cancel | .outside | .ok => [.closePowerDlg]
  | .body => []

def filesMenuClickMenus (row : Option ℕ) (onMenu : Bool) : List MenuOp :=
  match row with
  | some i => [.filesMenuSel i, .closeFilesMenu]
  | none => if onMenu then [] else [.closeFilesMenu]

def clickMenus (st : State φ) : Target → List MenuOp
  | .confirm => confirmMenus ev.confirm
  | .deskMenu => [.closeDeskMenu]
  | .filesMenu => filesMenuClickMenus ev.filesMenuRow ev.onFilesMenu
  | .runnerRow i => st.runnerLaunchMenus i
  | .runnerQuery => []
  | .launcherRow row => st.closeOutsideMenus scr ev ++ (st.closeOutside scr ev).launchIndexMenus row
  | .panel =>
    st.closeOutsideMenus scr ev ++ if st.wm.drag.isNone
      then (st.closeOutside scr ev).panelClickMenus fat ev.panel else []
  | .frame _ | .desktop => st.closeOutsideMenus scr ev

def rightClickMenus (st : State φ) : List MenuOp :=
  if st.menus.powerDlg.isSome then []
  else if st.menus.filesMenuOpen then [.closeFilesMenu]
  else if st.menus.deskMenuOpen then [.closeDeskMenu]
  else if st.menus.launcherOpen then [.closeLauncher]
  else if st.menus.runnerOpen then [.closeRunner]
  else if st.work scr ≤ st.y then []
  else
    match hitTest st.wm.frames st.x st.y with
    | none => [.openDeskMenu]
    | some (.client i) =>
      if st.wm.frames[i]?.any (fun f => f.kind = .files) && r.onRow then [.openFilesMenu] else []
    | some _ => []

def mouseMenus (st : State φ) : List MenuOp :=
  let moved := ((st.moveCursor scr ev).dragOn scr ev).holdButton ev
  let click := st.isClick ev
  let st := st.settle scr ev
  moved.hoverMenus ev ++
    if ev.rightDown ∧ st.wm.drag.isNone then st.rightClickMenus scr ev.reply
    else if click then st.clickMenus fat scr ev (st.target scr ev)
    else []

def menuOps (st : State φ) : Event φ → List MenuOp
  | .key _ => st.keys.head?.elim [] fun k => st.keyMenus fat k
  | .mouse ev => st.mouseMenus fat scr ev
  | .irq _ | .clientCreate .. | .clientClose _ | .volume _ => []

end MenuOps

section Traces

variable {fat : FatIo φ η} {scr : Screen} {r : Reply} {ev : Mouse}

theorem showKind_menus (kind : FrameKind) (st : State φ) :
    (st.showKind scr kind).menus = st.menus := by
  rw [showKind]
  split <;> rfl

theorem launch_menus (name : Bytes) (st : State φ) : (st.launch scr name).menus = st.menus := by
  rw [launch, focusNamed]
  split_ifs
  all_goals first
    | exact showKind_menus _ st
    | rfl

theorem runnerLaunch_menus (row : ℕ) (st : State φ) :
    (st.runnerLaunch scr row).menus = MenuOp.edits (st.runnerLaunchMenus row) st.menus := by
  rw [runnerLaunch, runnerLaunchMenus]
  cases st.menus.runnerList[row]? with
  | none => rfl
  | some name => exact launch_menus name _

theorem launchIndex_menus (row : ℕ) (st : State φ) :
    (st.launchIndex scr row).menus = MenuOp.edits (st.launchIndexMenus row) st.menus := by
  simp only [launchIndex, launchIndexMenus]
  split_ifs
  · rfl
  · rfl
  · cases st.menus.launchList[row]? with
    | none => rfl
    | some name => exact launch_menus name _

theorem handlePanelClick_menus (h : PanelHit) (st : State φ) :
    (st.handlePanelClick fat h).menus = MenuOp.edits (st.panelClickMenus fat h) st.menus := by
  cases h with
  | launcher =>
    change (if st.menus.launcherOpen then _ else _ : Menus) = _
    rw [panelClickMenus]
    split <;> rfl
  | krunner =>
    change (if st.menus.runnerOpen then _ else _ : Menus) = _
    rw [panelClickMenus]
    split <;> rfl
  | task k => rfl
  | taskClose k => rfl
  | clock => rfl
  | net => rfl
  | none => rfl

theorem filesMenuActivate_menus (st : State φ) :
    (st.filesMenuActivate fat r).menus = st.menus.closeFilesMenu := by
  simp only [filesMenuActivate]
  split_ifs <;> rfl

theorem applyDeskAction_menus (st : State φ) : (st.applyDeskAction fat scr r).menus = st.menus := by
  rw [applyDeskAction]
  cases r.action with
  | none => rfl
  | setMode m =>
    dsimp only
    rw [applyPanelMode]
    split <;> rfl
  | setWall path =>
    dsimp only
    split <;> rfl

theorem filesKey_menus (k : UInt8) (st : State φ) : (st.filesKey fat r k).menus = st.menus := by
  rw [filesKey]
  split_ifs <;> rfl

theorem confirmKey_menus (k : UInt8) (st : State φ) :
    (st.confirmKey fat k).menus = MenuOp.edits (st.confirmKeyMenus k) st.menus := by
  rw [confirmKey, confirmKeyMenus]
  split_ifs <;> rfl

theorem runnerKey_menus (k : UInt8) (st : State φ) :
    (st.runnerKey fat scr k).menus = MenuOp.edits (st.runnerKeyMenus fat k) st.menus := by
  rw [runnerKey, runnerKeyMenus]
  split_ifs
  all_goals first
    | exact runnerLaunch_menus _ st
    | rfl
    | simp [setMenus, MenuOp.edits, MenuOp.edit, *]

theorem launcherKey_menus (k : UInt8) (st : State φ) :
    (st.launcherKey scr k).menus = MenuOp.edits (st.launcherKeyMenus k) st.menus := by
  rw [launcherKey, launcherKeyMenus]
  split_ifs
  all_goals first
    | exact launchIndex_menus _ st
    | rfl
    | simp [setMenus, MenuOp.edits, MenuOp.edit, *]

theorem filesMenuKey_menus (k : UInt8) (st : State φ) :
    (st.filesMenuKey fat r k).menus = MenuOp.edits (st.filesMenuKeyMenus k) st.menus := by
  rw [filesMenuKey, filesMenuKeyMenus]
  split_ifs
  all_goals first
    | exact filesMenuActivate_menus st
    | rfl
    | simp [setMenus, MenuOp.edits, MenuOp.edit, *]

theorem applyKey_menus (k : UInt8) (st : State φ) :
    (st.applyKey fat scr r k).menus = MenuOp.edits (st.keyMenus fat k) st.menus := by
  rw [applyKey, keyMenus]
  by_cases hrun : k = keyRunner
  · rw [if_pos hrun, if_pos hrun]
    split
    · rfl
    · change (if st.menus.runnerOpen then _ else _ : Menus) = _
      split <;> rfl
  rw [if_neg hrun, if_neg hrun]
  by_cases hpower : st.menus.powerDlg.isSome = true
  · rw [if_pos hpower, if_pos hpower]
    exact confirmKey_menus k st
  rw [if_neg hpower, if_neg hpower]
  by_cases hrunner : st.menus.runnerOpen = true
  · rw [if_pos hrunner, if_pos hrunner]
    exact runnerKey_menus k st
  rw [if_neg hrunner, if_neg hrunner]
  by_cases hlauncher : st.menus.launcherOpen = true
  · rw [if_pos hlauncher, if_pos hlauncher]
    exact launcherKey_menus k st
  rw [if_neg hlauncher, if_neg hlauncher]
  by_cases hdesk : st.menus.deskMenuOpen = true
  · rw [if_pos hdesk, if_pos hdesk]
    by_cases hesc : k = keyEsc
    · rw [if_pos hesc, if_pos (.inl hesc)]
      rfl
    by_cases henter : k = keyEnter
    · rw [if_neg hesc, if_pos henter, if_pos (.inr henter)]
      exact showKind_menus _ _
    · rw [if_neg hesc, if_neg henter, if_neg (by simp [hesc, henter])]
      rfl
  rw [if_neg hdesk, if_neg hdesk]
  by_cases hfiles : st.menus.filesMenuOpen = true
  · rw [if_pos hfiles, if_pos hfiles]
    exact filesMenuKey_menus k st
  rw [if_neg hfiles, if_neg hfiles]
  have htab : ∀ s : State φ, s.menus = st.menus → (if k = keyTab then st.applyKeyTab else s).menus =
      st.menus := by
    intro s hs
    split
    · rfl
    · exact hs
  split
  · exact htab st rfl
  · exact htab _ (applyDeskAction_menus st)
  · exact filesKey_menus k st

theorem hover_menus (st : State φ) :
    (st.hover ev).menus = MenuOp.edits (st.hoverMenus ev) st.menus := by
  rw [hover, hoverMenus]
  split <;> rfl

theorem settle_menus (st : State φ) :
    (st.settle scr ev).menus = MenuOp.edits
      ((((st.moveCursor scr ev).dragOn scr ev).holdButton ev).hoverMenus ev) st.menus := by
  have hmoved : (((st.moveCursor scr ev).dragOn scr ev).holdButton ev).menus = st.menus := by
    have hcursor : (st.moveCursor scr ev).menus = st.menus := by
      rw [moveCursor]
      split <;> rfl
    rw [← hcursor]
    change ((st.moveCursor scr ev).dragOn scr ev).menus = _
    rw [dragOn]
    split <;> rfl
  rw [settle, hover_menus, hmoved]

theorem closeOutside_menus (st : State φ) :
    (st.closeOutside scr ev).menus = MenuOp.edits (st.closeOutsideMenus scr ev) st.menus := by
  have hsecond : ∀ s : State φ, s.menus.launcherOpen = st.menus.launcherOpen → s.y = st.y →
      s.work scr = st.work scr → (if s.menus.launcherOpen ∧ s.y < s.work scr ∧ ev.launcherRow =
        none ∧ ev.onLauncher = false then s.setMenus .closeLauncher else s).menus =
      MenuOp.edits
        (if st.menus.launcherOpen ∧ st.y < st.work scr ∧ ev.launcherRow = none ∧ ev.onLauncher =
          false then [.closeLauncher] else [])
        s.menus := by
    intro s hopen hy hwork
    rw [hopen, hy, hwork]
    split <;> rfl
  have hkept : (st.setMenus .closeRunner).menus.launcherOpen = st.menus.launcherOpen := by
    change st.menus.closeRunner.launcherOpen = _
    rw [Menus.closeRunner]
    split <;> rfl
  have hplain := hsecond st rfl rfl rfl
  have hclosed := hsecond (st.setMenus .closeRunner) hkept rfl rfl
  simp only [closeOutside, closeOutsideMenus, MenuOp.edits_append]
  cases st.menus.runnerOpen with
  | false => exact hplain
  | true =>
    cases ev.krunner with
    | outside =>
      by_cases hy : st.y < st.work scr
      · simp only [if_pos hy]
        exact hclosed
      · simp only [if_neg hy]
        exact hplain
    | query => exact hplain
    | row i => exact hplain

theorem clickFrame_menus (hit : Hit) (st : State φ) :
    (st.clickFrame fat scr ev hit).1.menus = st.menus := by
  have hbegin : ∀ (f : Frame) (gx gy : ℤ) (edge : Option Edge) (s : State φ),
      (s.beginDrag f gx gy edge).menus = s.menus := by
    intro f gx gy edge s
    rw [beginDrag]
    split <;> rfl
  rw [clickFrame]
  cases st.wm.frames[hit.frame]? with
  | none => rfl
  | some f =>
    cases hit with
    | close i =>
      dsimp only
      cases f.kind with
      | client id =>
        change (st.onClientClose id).menus = st.menus
        rw [onClientClose]
        split <;> rfl
      | _ => rfl
    | min i => rfl
    | max i => rfl
    | title i =>
      simp only [clickTitle]
      split
      · rfl
      · exact hbegin ..
    | resize i edge => exact hbegin ..
    | client i =>
      dsimp only
      rw [clickClient]
      cases f.kind with
      | settings => exact applyDeskAction_menus _
      | _ => rfl

theorem clickOn_menus (target : Target) (st : State φ) :
    (st.clickOn fat scr ev target).1.menus = MenuOp.edits (st.clickMenus fat scr ev target)
      st.menus := by
  have hout : (st.closeOutside scr ev).menus = _ := closeOutside_menus st
  cases target with
  | confirm =>
    change (st.handleConfirmClick fat ev.confirm).menus =
        MenuOp.edits (confirmMenus ev.confirm) st.menus
    cases ev.confirm <;> rfl
  | deskMenu =>
    rw [clickOn, handleDeskMenuClick]
    split
    · exact showKind_menus _ _
    · rfl
  | filesMenu =>
    change (st.handleFilesMenuClick fat ev.reply ev.filesMenuRow ev.onFilesMenu).menus =
      MenuOp.edits (filesMenuClickMenus ev.filesMenuRow ev.onFilesMenu) st.menus
    cases ev.filesMenuRow with
    | some i => exact filesMenuActivate_menus _
    | none =>
      change (if ev.onFilesMenu then st else st.setMenus .closeFilesMenu).menus = _
      rw [filesMenuClickMenus]
      split <;> rfl
  | runnerRow i => exact runnerLaunch_menus i st
  | runnerQuery => rfl
  | launcherRow row =>
    rw [clickMenus, MenuOp.edits_append, ← hout]
    exact launchIndex_menus row _
  | panel =>
    have hwm : (st.closeOutside scr ev).wm = st.wm := congrArg Desk.wm (closeOutside_desk st)
    rw [clickOn, clickMenus, MenuOp.edits_append, ← hout]
    dsimp only
    rw [hwm]
    split
    · exact handlePanelClick_menus _ _
    · rfl
  | frame hit => exact (clickFrame_menus hit _).trans hout
  | desktop => exact hout

theorem handleRightClick_menus (st : State φ) :
    (st.handleRightClick scr r).menus = MenuOp.edits (st.rightClickMenus scr r) st.menus := by
  rw [handleRightClick, rightClickMenus]
  split
  · rfl
  · split
    · rfl
    · split
      · rfl
      · split
        · rfl
        · split
          · rfl
          · split
            · rfl
            · cases hitTest st.wm.frames st.x st.y with
              | none => rfl
              | some hit =>
                cases hit with
                | client i =>
                  dsimp only
                  cases st.wm.frames[i]?.any fun f => f.kind = .files with
                  | false => rfl
                  | true =>
                    rw [if_pos rfl, Bool.true_and]
                    split <;> rfl
                | _ => rfl

theorem release_menus (st : State φ) : (st.release scr ev).menus = st.menus := by
  rw [release]
  split
  · dsimp only
    split <;> rfl
  · rfl

theorem pollMouse_menus (st : State φ) :
    (st.pollMouse fat scr ev).menus = MenuOp.edits (st.mouseMenus fat scr ev) st.menus := by
  rw [pollMouse, mouseMenus]
  dsimp only
  rw [MenuOp.edits_append, ← settle_menus]
  split
  · exact handleRightClick_menus _
  · split
    · split
      · exact clickOn_menus _ _
      · exact (release_menus _).trans (clickOn_menus _ _)
    · exact release_menus _

theorem step_menus {st st' : State φ} {e : Event φ} (h : step fat scr st e = some st') :
    st'.menus = MenuOp.edits (st.menuOps fat scr e) st.menus := by
  cases e with
  | irq key =>
    cases h
    obtain ⟨ks, hks⟩ := dispatch_eq key st
    rw [hks]
    rfl
  | key r =>
    rw [step] at h
    rw [menuOps]
    cases hkeys : st.keys with
    | nil =>
      rw [hkeys] at h
      cases h
    | cons k ks =>
      rw [hkeys] at h
      cases h
      exact applyKey_menus k { st with keys := ks }
  | mouse ev =>
    cases h
    exact pollMouse_menus st
  | clientCreate id cw ch ox oy =>
    cases h
    rfl
  | clientClose id =>
    cases h
    rw [onClientClose]
    split <;> rfl
  | volume m =>
    cases h
    rfl

end Traces

section Orders

variable {fat : FatIo φ η} {scr : Screen} {r : Reply} {ev : Mouse} {f : Flags}

theorem orderly_append {pre ops : List MenuOp} (hpre : ∀ op ∈ pre, op.opens = false)
    (h : Orderly ops f) : Orderly (pre ++ ops) f := by
  rcases h with h | ⟨hclear, h⟩
  · refine .inl fun op hop => ?_
    rcases List.mem_append.mp hop with hop | hop
    · exact hpre op hop
    · exact h op hop
  · rcases List.eq_nil_or_concat ops with rfl | ⟨ops, last, rfl⟩
    · exact .inl (by simpa using hpre)
    · rw [List.concat_eq_append] at h ⊢
      rw [List.dropLast_concat] at h
      refine .inr ⟨hclear, fun op hop => ?_⟩
      rw [← List.append_assoc, List.dropLast_concat] at hop
      rcases List.mem_append.mp hop with hop | hop
      · exact hpre op hop
      · exact h op hop

theorem orderly_single (op : MenuOp) (h : f.clear = true) : Orderly [op] f := .inr ⟨h, by simp⟩

theorem runnerLaunchMenus_opens (row : ℕ) (st : State φ) :
    ∀ op ∈ st.runnerLaunchMenus row, op.opens = false := by
  rw [runnerLaunchMenus]
  cases st.menus.runnerList[row]? <;> simp [MenuOp.opens]

theorem launchIndexMenus_orderly (row : ℕ) (st : State φ) (h : f.clear = true) :
    Orderly (st.launchIndexMenus row) f := by
  rw [launchIndexMenus]
  split_ifs <;> exact orderly_single _ h

theorem hoverMenus_opens (st : State φ) : ∀ op ∈ st.hoverMenus ev, op.opens = false := by
  rw [hoverMenus]
  split <;> simp [MenuOp.opens]

theorem closeOutsideMenus_opens (st : State φ) :
    ∀ op ∈ st.closeOutsideMenus scr ev, op.opens = false := by
  intro op hop
  rw [closeOutsideMenus] at hop
  rcases List.mem_append.mp hop with hop | hop
  · split at hop
    · split at hop <;> simp_all [MenuOp.opens]
    · cases hop
  · split at hop <;> simp_all [MenuOp.opens]

theorem panelClickMenus_orderly (h : PanelHit) (st : State φ) (hclear : f.clear = true) :
    Orderly (st.panelClickMenus fat h) f := by
  cases h with
  | launcher =>
    rw [panelClickMenus]
    split <;> exact orderly_single _ hclear
  | krunner =>
    rw [panelClickMenus]
    split <;> exact orderly_single _ hclear
  | task k => exact .inl (by simp [panelClickMenus, MenuOp.opens])
  | taskClose k => exact .inl (by simp [panelClickMenus, MenuOp.opens])
  | clock => exact .inl (by simp [panelClickMenus, MenuOp.opens])
  | net => exact .inl (by simp [panelClickMenus, MenuOp.opens])
  | none => exact .inl (by simp [panelClickMenus, MenuOp.opens])

theorem clear_iff (st : State φ) : st.menus.flags.clear = true ↔ ¬st.menus.powerDlg.isSome = true ∧
    ¬st.menus.filesMenuOpen = true := by
  simp [Flags.clear, Menus.flags]

theorem target_clear {st : State φ} (h : st.menus.flags.clear = false) :
    st.target scr ev = .confirm ∨ st.target scr ev = .deskMenu ∨ st.target scr ev = .filesMenu := by
  rw [target]
  by_cases hpower : st.menus.powerDlg.isSome = true
  · rw [if_pos hpower]
    exact .inl rfl
  rw [if_neg hpower]
  by_cases hdesk : st.menus.deskMenuOpen = true
  · rw [if_pos hdesk]
    exact .inr (.inl rfl)
  rw [if_neg hdesk]
  by_cases hfiles : st.menus.filesMenuOpen = true
  · rw [if_pos hfiles]
    exact .inr (.inr rfl)
  · rw [(clear_iff st).mpr ⟨hpower, hfiles⟩] at h
    cases h

theorem clickMenus_orderly (st : State φ) :
    Orderly (st.clickMenus fat scr ev (st.target scr ev)) st.menus.flags := by
  have hconfirm : Orderly (confirmMenus ev.confirm) st.menus.flags := by
    refine .inl ?_
    cases ev.confirm <;> simp [confirmMenus, MenuOp.opens]
  have hfiles : Orderly (filesMenuClickMenus ev.filesMenuRow ev.onFilesMenu) st.menus.flags := by
    refine .inl ?_
    cases ev.filesMenuRow with
    | some i => simp [filesMenuClickMenus, MenuOp.opens]
    | none =>
      rw [filesMenuClickMenus]
      split <;> simp [MenuOp.opens]
  have hout : ∀ op ∈ st.closeOutsideMenus scr ev, op.opens = false := closeOutsideMenus_opens st
  cases hclear : st.menus.flags.clear with
  | false =>
    have htarget : st.target scr ev = .confirm ∨ st.target scr ev = .deskMenu ∨
        st.target scr ev = .filesMenu := target_clear hclear
    rcases htarget with ht | ht | ht
    · rw [ht]
      exact hconfirm
    · rw [ht]
      exact .inl (by simp [clickMenus, MenuOp.opens])
    · rw [ht]
      exact hfiles
  | true =>
    cases st.target scr ev with
    | confirm => exact hconfirm
    | deskMenu => exact .inl (by simp [clickMenus, MenuOp.opens])
    | filesMenu => exact hfiles
    | runnerRow i => exact .inl (runnerLaunchMenus_opens i st)
    | runnerQuery => exact .inl (by simp [clickMenus])
    | launcherRow row => exact orderly_append hout (launchIndexMenus_orderly row _ hclear)
    | panel =>
      refine orderly_append hout ?_
      split
      · exact panelClickMenus_orderly _ _ hclear
      · exact .inl (by simp)
    | frame hit => exact .inl hout
    | desktop => exact .inl hout

theorem rightClickMenus_orderly (st : State φ) :
    Orderly (st.rightClickMenus scr r) st.menus.flags := by
  rw [rightClickMenus]
  split
  · exact .inl (by simp)
  · rename_i hpower
    split
    · exact .inl (by simp [MenuOp.opens])
    · rename_i hfiles
      have hclear := (clear_iff st).mpr ⟨hpower, hfiles⟩
      split
      · exact .inl (by simp [MenuOp.opens])
      · split
        · exact .inl (by simp [MenuOp.opens])
        · split
          · exact .inl (by simp [MenuOp.opens])
          · split
            · exact .inl (by simp)
            · split
              · exact orderly_single _ hclear
              · split
                · exact orderly_single _ hclear
                · exact .inl (by simp)
              · exact .inl (by simp)

theorem settle_flags (st : State φ) : (st.settle scr ev).menus.flags = st.menus.flags := by
  rw [settle_menus]
  simp only [hoverMenus]
  split <;> rfl

theorem mouseMenus_orderly (st : State φ) : Orderly (st.mouseMenus fat scr ev) st.menus.flags := by
  rw [mouseMenus]
  refine orderly_append (hoverMenus_opens _) ?_
  have hflags : (st.settle scr ev).menus.flags = st.menus.flags := settle_flags st
  rw [← hflags]
  split
  · exact rightClickMenus_orderly _
  · split
    · exact clickMenus_orderly _
    · exact .inl (by simp)

theorem keyMenus_orderly {k : UInt8} {st : State φ} (hone : st.menus.flags.count ≤ 1)
    (h : ¬(k = keyRunner ∧ st.menus.filesMenuOpen = true)) :
    Orderly (st.keyMenus fat k) st.menus.flags := by
  have hlaunch : st.menus.launcherOpen = true →
      Orderly (st.launchIndexMenus st.menus.launchSel) st.menus.flags := by
    intro hopen
    refine launchIndexMenus_orderly _ _ ?_
    simp only [Flags.count, Flags.clear, Menus.flags, hopen] at hone ⊢
    rw [Bool.toNat_true] at hone
    cases hp : st.menus.powerDlg.isSome with
    | true =>
      rw [hp, Bool.toNat_true] at hone
      omega
    | false =>
      cases hf : st.menus.filesMenuOpen with
      | true =>
        rw [hf, Bool.toNat_true] at hone
        omega
      | false => rfl
  have hrunner := runnerLaunchMenus_opens st.menus.runnerSel st
  rw [keyMenus]
  split
  · rename_i hk
    split
    · exact .inl (by simp)
    · rename_i hpower
      split
      · exact .inl (by simp [MenuOp.opens])
      · exact orderly_single _ ((clear_iff st).mpr ⟨hpower, fun hf => h ⟨hk, hf⟩⟩)
  · split
    · refine .inl ?_
      rw [confirmKeyMenus]
      split_ifs <;> simp [MenuOp.opens]
    · split
      · refine .inl ?_
        rw [runnerKeyMenus]
        split_ifs
        all_goals first
          | exact hrunner
          | simp [MenuOp.opens]
      · split
        · rename_i hopen
          rw [launcherKeyMenus]
          split_ifs
          all_goals first
            | exact hlaunch hopen
            | exact .inl (by simp [MenuOp.opens])
        · split
          · refine .inl ?_
            split <;> simp [MenuOp.opens]
          · split
            · refine .inl ?_
              rw [filesMenuKeyMenus]
              split_ifs <;> simp [MenuOp.opens]
            · exact .inl (by simp)

end Orders

/-- Alt+Space reaches the compositor while the menu of the file manager is open. -/
def RunnerOverFiles (st : State φ) : Event φ → Prop
  | .key _ => st.keys.head? = some keyRunner ∧ st.menus.filesMenuOpen = true
  | _ => False

instance (st : State φ) (e : Event φ) : Decidable (st.RunnerOverFiles e) :=
  match e with
  | .key _ => inferInstanceAs (Decidable (_ ∧ _))
  | .irq _ | .mouse _ | .clientCreate .. | .clientClose _ | .volume _ => .isFalse id

theorem menuOps_orderly {fat : FatIo φ η} {scr : Screen} {st : State φ} {e : Event φ}
    (hone : st.menus.flags.count ≤ 1) (h : ¬st.RunnerOverFiles e) :
    Orderly (st.menuOps fat scr e) st.menus.flags := by
  cases e with
  | key r =>
    rw [menuOps]
    cases hkeys : st.keys.head? with
    | none => exact .inl (by simp)
    | some k =>
      refine keyMenus_orderly hone fun hk => h ⟨?_, hk.2⟩
      rw [hkeys, hk.1]
  | mouse ev => exact mouseMenus_orderly st
  | irq key => exact .inl (by simp [menuOps])
  | clientCreate id cw ch ox oy => exact .inl (by simp [menuOps])
  | clientClose id => exact .inl (by simp [menuOps])
  | volume m => exact .inl (by simp [menuOps])

end State

/-- The compositor and the flags of its overlays. -/
structure Shell (φ : Type) where
  st : State φ
  flags : Flags

def State.heard {φ : Type} (f : Flags) (st : State φ) : State φ :=
  st.setMenus fun s =>
    { s with
      launcherOpen := f.launcher
      runnerOpen := f.runner
      powerDlg := if f.power then some .reboot else none
      deskMenuOpen := f.deskMenu
      filesMenuOpen := f.filesMenu }

namespace Shell

variable {φ η : Type} (fat : FatIo φ η) (scr : Screen)

def step (s : Shell φ) (e : Event φ) : Option (Shell φ) :=
  match e with
  | .irq key => some { s with st := { s.st with keys := ((s.st.heard s.flags).dispatch key).keys } }
  | e =>
    (s.st.step fat scr e).map fun st =>
      ⟨st, (MenuOp.run (s.st.menuOps fat scr e) ⟨s.st.menus, s.flags⟩).flags⟩

def init (mode : PanelMode) (wall : Option Bytes) (m : Mount φ) : Shell φ :=
  ⟨.init fat mode wall m, .init⟩

/-- At most one overlay is open, and the flags say which. -/
def Single (s : Shell φ) : Prop := s.st.menus.flags.count ≤ 1 ∧ s.flags = s.st.menus.flags

instance (s : Shell φ) : Decidable s.Single := inferInstanceAs (Decidable (_ ∧ _))

variable {fat scr} {s s' : Shell φ} {e : Event φ}

theorem init_single (mode : PanelMode) (wall : Option Bytes) (m : Mount φ) :
    (init fat mode wall m).Single :=
  ⟨Nat.zero_le 1, rfl⟩

theorem step_cases (h : step fat scr s e = some s') :
    (∃ key ks, e = .irq key ∧ s' = { s with st := { s.st with keys := ks } }) ∨
      (s.st.step fat scr e = some s'.st ∧
        Overlay.mk s'.st.menus s'.flags = MenuOp.run (s.st.menuOps fat scr e) ⟨s.st.menus,
          s.flags⟩) := by
  have hother :
      (s.st.step fat scr e).map (fun st =>
        Shell.mk st (MenuOp.run (s.st.menuOps fat scr e) ⟨s.st.menus, s.flags⟩).flags) = some s' →
      s.st.step fat scr e = some s'.st ∧
        Overlay.mk s'.st.menus s'.flags = MenuOp.run (s.st.menuOps fat scr e) ⟨s.st.menus,
          s.flags⟩ := by
    intro hs
    obtain ⟨st, hst, rfl⟩ := Option.map_eq_some_iff.mp hs
    refine ⟨hst, ?_⟩
    rw [State.step_menus hst, ← MenuOp.run_menus (o := ⟨s.st.menus, s.flags⟩)]
  cases e with
  | irq key =>
    cases h
    exact .inl ⟨key, _, rfl, rfl⟩
  | key r => exact .inr (hother h)
  | mouse ev => exact .inr (hother h)
  | clientCreate id cw ch ox oy => exact .inr (hother h)
  | clientClose id => exact .inr (hother h)
  | volume m => exact .inr (hother h)

theorem runner_over_files {st st' : State φ} (h : st.step fat scr e = some st')
    (hone : st.menus.flags.count ≤ 1) (hover : st.RunnerOverFiles e) :
    1 < st'.menus.flags.count := by
  cases e with
  | key r =>
    obtain ⟨hhead, hfiles⟩ := hover
    have hfilesFlag : st.menus.flags.filesMenu = true := hfiles
    have hfree : st.menus.flags.power = false ∧ st.menus.flags.runner = false := by
      rw [Flags.count, hfilesFlag, Bool.toNat_true] at hone
      constructor
      · exact Bool.toNat_eq_zero.mp (by omega)
      · exact Bool.toNat_eq_zero.mp (by omega)
    have hpower : ¬st.menus.powerDlg.isSome = true := Bool.not_eq_true _ ▸ hfree.1
    have hrunner : ¬st.menus.runnerOpen = true := Bool.not_eq_true _ ▸ hfree.2
    have hops : st.menuOps fat scr (.key r) = [.openRunner (st.entries fat)] := by
      rw [State.menuOps, hhead]
      change st.keyMenus fat keyRunner = _
      rw [State.keyMenus, if_pos rfl, if_neg hpower, if_neg hrunner]
    have hmark : st'.menus.flags = (MenuOp.openRunner (st.entries fat)).mark st.menus.flags := by
      rw [State.step_menus h, hops, ← MenuOp.edit_flags]
      rfl
    rw [hmark]
    simp only [MenuOp.mark, Flags.count, hfilesFlag, Bool.toNat_true]
    omega
  | _ => exact hover.elim

theorem step_single_iff (h : step fat scr s e = some s') (hs : s.Single) :
    s'.Single ↔ ¬s.st.RunnerOverFiles e := by
  obtain ⟨hone, hflags⟩ := hs
  rcases step_cases h with ⟨key, ks, rfl, rfl⟩ | ⟨hstep, hrun⟩
  · exact ⟨fun _ => id, fun _ => ⟨hone, hflags⟩⟩
  · refine ⟨fun hs' hover => ?_, fun hnot => ⟨?_, ?_⟩⟩
    · exact absurd hs'.1 (Nat.not_le.mpr (runner_over_files hstep hone hover))
    · rw [State.step_menus hstep]
      exact MenuOp.edits_orderly (State.menuOps_orderly hone hnot) hone
    · have hmatches :=
        MenuOp.run_matches (s.st.menuOps fat scr e) (o := ⟨s.st.menus, s.flags⟩) hflags
      rw [← hrun] at hmatches
      exact hmatches

/-- Over a run at most one overlay is open, and the flags are right, exactly if no step takes
Alt+Space while the menu of the file manager is open. -/
theorem overlays_iff {mode : PanelMode} {wall : Option Bytes} {m : Mount φ}
    {ts : List (Trans (Shell φ) (Event φ))} (h : Path (step fat scr) (init fat mode wall m) ts s) :
    (∀ t ∈ ts, t.post.Single) ↔ ∀ t ∈ ts, ¬t.pre.st.RunnerOverFiles t.act :=
  h.forall_iff (I := Single) (init_single mode wall m) (fun _ hstep hpre =>
    step_single_iff hstep hpre) fun _ hstep hpre hnot => (step_single_iff hstep hpre).mpr hnot

section Sample

open State (listFat oneFile screen noReply pressBy openBoth)

def rightBy (dx dy : ℤ) : Mouse :=
  { pressBy dx dy with leftDown := false, rightDown := true, reply := { noReply with
    onRow := true } }

theorem menu_then_runner :
    ∃ ts s, Path (step listFat screen) (init listFat .float none oneFile) ts s ∧
    (∀ t ∈ ts, t.post.Single) ∧ (∃ t ∈ ts, t.post.st.menus.filesMenuOpen = true) ∧
    s.st.menus.runnerOpen = true := by
  obtain ⟨⟨ts, s⟩, hrun, hp⟩ :=
    exists_path_of_replay (step listFat screen) (init listFat .float none oneFile)
    (openBoth ++ [.mouse (rightBy 44 44), .irq .esc, .key noReply, .irq .altSpace, .key noReply])
    (fun r => (r.1.all fun t => decide (¬t.pre.st.RunnerOverFiles t.act)) &&
      ((r.1.any fun t => t.post.st.menus.filesMenuOpen) && r.2.st.menus.runnerOpen)) (by decide)
  simp only [Bool.and_eq_true, List.all_eq_true, List.any_eq_true, decide_eq_true_eq] at hp
  exact ⟨ts, s, hrun, (overlays_iff hrun).mpr hp.1, hp.2⟩

/-- Alt+Space over the menu of the file manager: both are open. -/
theorem runner_beside_menu :
    ∃ ts s, Path (step listFat screen) (init listFat .float none oneFile) ts s ∧
    s.st.menus.filesMenuOpen = true ∧ s.st.menus.runnerOpen = true ∧ ¬∀ t ∈ ts, t.post.Single := by
  obtain ⟨⟨ts, s⟩, hrun, hp⟩ :=
    exists_path_of_replay (step listFat screen) (init listFat .float none oneFile)
    (openBoth ++ [.mouse (rightBy 44 44), .irq .altSpace, .key noReply])
    (fun r => r.2.st.menus.filesMenuOpen &&
      (r.2.st.menus.runnerOpen && r.1.any fun t => decide ¬t.post.Single)) (by decide)
  simp only [Bool.and_eq_true, List.any_eq_true, decide_eq_true_eq] at hp
  obtain ⟨hfiles, hrunner, t, ht, hnot⟩ := hp
  exact ⟨ts, s, hrun, hfiles, hrunner, fun hall => hnot (hall t ht)⟩

end Sample

end Shell

end CoeleoOs.Ui
