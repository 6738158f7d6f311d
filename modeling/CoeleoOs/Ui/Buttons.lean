import CoeleoOs.Input.Mouse
import CoeleoOs.Ui.Ops

/-!
# The left button

The mouse sends packets, a poll drains those that have arrived, and keys and the windows of
clients come in between. The compositor takes the button for held as long as the packets it
has drained say so, if no poll hides a change of the button from it.
-/

namespace CoeleoOs.Ui
open CoeleoOs.Lib CoeleoOs.Lib.Machine CoeleoOs.Fs CoeleoOs.Input
open CoeleoOs.Task (Bytes)

namespace WmOp

variable {scr : Screen}

def plain : WmOp → Bool
  | drag g => g.isNone
  | toggleMax _ => false
  | _ => true

theorem apply_drag_none {op : WmOp} {d : Desk} (hop : op.plain = true) (h : d.wm.drag = none) :
    (op.apply scr d).wm.drag = none := by
  have hfocus : ∀ (w : Wm) (i : ℕ), (w.focusFrame i).drag = w.drag := by
    intro w i
    rw [Wm.focusFrame]
    split <;> rfl
  have hretarget : ∀ w : Wm, w.retargetFocus.drag = w.drag := by
    intro w
    rw [Wm.retargetFocus]
    split
    · rfl
    · exact hfocus w _
  have hdrop : ∀ (w : Wm) (kind : FrameKind), w.drag = none → (w.dropDrag kind).drag = none := by
    intro w kind hw
    rw [Wm.dropDrag]
    split
    · rfl
    · exact hw
  have hshow : ∀ (w : Wm) (i : ℕ), (w.showFrame i).drag = w.drag := fun w i => hfocus _ _
  have hclose : ∀ i, (d.wm.closeFrame i).drag = none := by
    intro i
    rw [Wm.closeFrame]
    split
    · exact h
    · exact (hretarget _).trans (hdrop d.wm _ h)
  cases op with
  | setFocus g => exact h
  | focusFrame i => exact (hfocus d.wm i).trans h
  | raise i => exact h
  | showFrame i => exact (hshow d.wm i).trans h
  | showKind kind =>
    rw [apply]
    cases he : Wm.ensureFrame scr d.mode d.wm kind with
    | none => exact h
    | some r =>
      obtain ⟨w, i⟩ := r
      refine (hshow w i).trans ?_
      rw [Wm.ensureFrame] at he
      split at he
      · cases he
        exact h
      · simp only [Option.map_eq_some_iff] at he
        obtain ⟨_, _, hw⟩ := he
        cases hw
        exact h
  | minimize i =>
    rw [apply]
    change (d.wm.minimizeFrame i).drag = none
    rw [Wm.minimizeFrame]
    split
    · exact h
    · split
      · exact h
      · exact (hretarget _).trans (hdrop _ _ h)
  | restore i => exact (hfocus _ i).trans h
  | close i => exact hclose i
  | clientClose id =>
    rw [apply]
    split
    · exact h
    · exact hclose _
  | toggleMax i => exact h
  | setMode m =>
    rw [apply]
    split
    · exact h
    · exact h
  | drag g => simpa [plain, apply] using hop
  | follow cx cy =>
    rw [apply]
    change (Wm.applyDrag scr (workH scr d.mode) cx cy d.wm).drag = none
    rw [Wm.applyDrag, h]
    exact h

theorem run_drag_none {ops : List WmOp} {d : Desk} (hops : ∀ op ∈ ops, op.plain = true)
    (h : d.wm.drag = none) : (run scr ops d).wm.drag = none := by
  induction ops generalizing d with
  | nil => exact h
  | cons op ops ih =>
    exact ih (fun o ho => hops o (List.mem_cons_of_mem _ ho))
      (apply_drag_none (hops op List.mem_cons_self) h)

end WmOp

namespace State

variable {φ η : Type} {fat : FatIo φ η} {scr : Screen} {r : Reply} {ev : Mouse}

section Plain

theorem launchOps_plain (name : Bytes) : ∀ op ∈ launchOps name, op.plain = true := by
  rw [launchOps]
  split_ifs <;> simp [WmOp.plain]

theorem runnerLaunchOps_plain (row : ℕ) (st : State φ) :
    ∀ op ∈ st.runnerLaunchOps row, op.plain = true := by
  rw [runnerLaunchOps]
  cases st.menus.runnerList[row]? with
  | none => simp
  | some name => exact launchOps_plain name

theorem launchIndexOps_plain (row : ℕ) (st : State φ) :
    ∀ op ∈ st.launchIndexOps row, op.plain = true := by
  rw [launchIndexOps]
  split
  · simp
  · cases st.menus.launchList[row]? with
    | none => simp
    | some name => exact launchOps_plain name

theorem tabOps_plain (w : Wm) : ∀ op ∈ tabOps w, op.plain = true := by
  rw [tabOps]
  split <;> simp [WmOp.plain]

theorem actionOps_plain : ∀ op ∈ actionOps r, op.plain = true := by
  rw [actionOps]
  split <;> simp [WmOp.plain]

theorem keyOps_plain (k : UInt8) (st : State φ) : ∀ op ∈ st.keyOps r k, op.plain = true := by
  have hrunner := runnerLaunchOps_plain st.menus.runnerSel st
  have hlauncher := launchIndexOps_plain st.menus.launchSel st
  have htab := tabOps_plain st.wm
  have haction := actionOps_plain (r := r)
  rw [keyOps]
  split_ifs
  all_goals first
    | assumption
    | simp [WmOp.plain]

theorem rightClickOps_plain (st : State φ) : ∀ op ∈ st.rightClickOps scr, op.plain = true := by
  rw [rightClickOps]
  repeat' split
  all_goals simp [WmOp.plain]

theorem dragOps_plain (st : State φ) : ∀ op ∈ st.dragOps scr ev, op.plain = true := by
  simp only [dragOps]
  split <;> simp [WmOp.plain]

end Plain

section Held

theorem showKind_btnHeld (kind : FrameKind) (st : State φ) :
    (st.showKind scr kind).btnHeld = st.btnHeld := by
  rw [showKind]
  split <;> rfl

theorem launch_btnHeld (name : Bytes) (st : State φ) :
    (st.launch scr name).btnHeld = st.btnHeld := by
  rw [launch, focusNamed]
  split_ifs
  all_goals first
    | exact showKind_btnHeld _ st
    | rfl

theorem runnerLaunch_btnHeld (row : ℕ) (st : State φ) :
    (st.runnerLaunch scr row).btnHeld = st.btnHeld := by
  rw [runnerLaunch]
  split
  · rfl
  · exact launch_btnHeld _ _

theorem launchIndex_btnHeld (row : ℕ) (st : State φ) :
    (st.launchIndex scr row).btnHeld = st.btnHeld := by
  simp only [launchIndex]
  split_ifs
  · rfl
  · rfl
  · split
    · rfl
    · exact launch_btnHeld _ _

theorem handlePanelClick_btnHeld (h : PanelHit) (st : State φ) :
    (st.handlePanelClick fat h).btnHeld = st.btnHeld := by
  cases h <;> rfl

theorem filesMenuActivate_btnHeld (st : State φ) :
    (st.filesMenuActivate fat r).btnHeld = st.btnHeld := by
  simp only [filesMenuActivate]
  split_ifs <;> rfl

theorem applyDeskAction_btnHeld (st : State φ) :
    (st.applyDeskAction fat scr r).btnHeld = st.btnHeld := by
  rw [applyDeskAction]
  cases r.action with
  | none => rfl
  | setMode m =>
    dsimp only
    rw [applyPanelMode]
    split <;> rfl
  | setWall path =>
    dsimp only
    split <;> rfl

theorem filesKey_btnHeld (k : UInt8) (st : State φ) :
    (st.filesKey fat r k).btnHeld = st.btnHeld := by
  rw [filesKey]
  split_ifs <;> rfl

theorem applyKey_btnHeld (k : UInt8) (st : State φ) :
    (st.applyKey fat scr r k).btnHeld = st.btnHeld := by
  have hconfirm : (st.confirmKey fat k).btnHeld = st.btnHeld := by
    rw [confirmKey]
    split_ifs <;> rfl
  have hrunner : (st.runnerKey fat scr k).btnHeld = st.btnHeld := by
    rw [runnerKey]
    split_ifs
    all_goals first
      | exact runnerLaunch_btnHeld _ st
      | rfl
  have hlauncher : (st.launcherKey scr k).btnHeld = st.btnHeld := by
    rw [launcherKey]
    split_ifs
    all_goals first
      | exact launchIndex_btnHeld _ st
      | rfl
  have hfilesMenu : (st.filesMenuKey fat r k).btnHeld = st.btnHeld := by
    rw [filesMenuKey]
    split_ifs
    all_goals first
      | exact filesMenuActivate_btnHeld st
      | rfl
  have htop : ∀ b c : State φ, b.btnHeld = st.btnHeld → c.btnHeld = st.btnHeld →
      (if k = keyTab then b else c).btnHeld = st.btnHeld := by
    intro b c hb hc
    split
    · exact hb
    · exact hc
  rw [applyKey]
  split
  · split <;> rfl
  · split
    · exact hconfirm
    · split
      · exact hrunner
      · split
        · exact hlauncher
        · split
          · split
            · rfl
            · split
              · exact showKind_btnHeld _ _
              · rfl
          · split
            · exact hfilesMenu
            · split
              · exact htop _ _ rfl rfl
              · exact htop _ _ rfl (applyDeskAction_btnHeld st)
              · exact filesKey_btnHeld k st

theorem onClientClose_btnHeld (id : ℕ) (st : State φ) :
    (st.onClientClose id).btnHeld = st.btnHeld := by
  rw [onClientClose]
  split <;> rfl

theorem beginDrag_btnHeld (f : Frame) (gx gy : ℤ) (edge : Option Edge) (st : State φ) :
    (st.beginDrag f gx gy edge).btnHeld = st.btnHeld := by
  rw [beginDrag]
  split <;> rfl

theorem clickFrame_btnHeld (hit : Hit) (st : State φ) :
    (st.clickFrame fat scr ev hit).1.btnHeld = st.btnHeld := by
  rw [clickFrame]
  cases st.wm.frames[hit.frame]? with
  | none => rfl
  | some f =>
    cases hit with
    | close i =>
      dsimp only
      cases f.kind with
      | client id => exact onClientClose_btnHeld id st
      | _ => rfl
    | min i => rfl
    | max i => rfl
    | title i =>
      simp only [clickTitle]
      split
      · rfl
      · exact beginDrag_btnHeld ..
    | resize i edge => exact beginDrag_btnHeld ..
    | client i =>
      dsimp only
      rw [clickClient]
      cases f.kind with
      | settings => exact applyDeskAction_btnHeld _
      | _ => rfl

theorem closeOutside_btnHeld (st : State φ) : (st.closeOutside scr ev).btnHeld = st.btnHeld := by
  obtain ⟨m, hm⟩ : ∃ m, st.closeOutside scr ev = { st with menus := m } := closeOutside_eq st
  rw [hm]

theorem clickOn_btnHeld (target : Target) (st : State φ) :
    (st.clickOn fat scr ev target).1.btnHeld = st.btnHeld := by
  have hout : (st.closeOutside scr ev).btnHeld = st.btnHeld := closeOutside_btnHeld st
  cases target with
  | confirm =>
    change (st.handleConfirmClick fat ev.confirm).btnHeld = st.btnHeld
    unfold handleConfirmClick
    split <;> rfl
  | deskMenu =>
    rw [clickOn, handleDeskMenuClick]
    split
    · exact showKind_btnHeld _ _
    · rfl
  | filesMenu =>
    change (st.handleFilesMenuClick fat ev.reply ev.filesMenuRow ev.onFilesMenu).btnHeld =
        st.btnHeld
    unfold handleFilesMenuClick
    split
    · exact filesMenuActivate_btnHeld _
    · split <;> rfl
  | runnerRow i => exact runnerLaunch_btnHeld i st
  | runnerQuery => rfl
  | launcherRow row => exact (launchIndex_btnHeld row _).trans hout
  | panel =>
    rw [clickOn]
    dsimp only
    split
    · exact (handlePanelClick_btnHeld _ _).trans hout
    · exact hout
  | frame hit => exact (clickFrame_btnHeld hit _).trans hout
  | desktop => exact hout

theorem handleRightClick_btnHeld (st : State φ) :
    (st.handleRightClick scr r).btnHeld = st.btnHeld := by
  rw [handleRightClick]
  repeat' split
  all_goals rfl

theorem release_btnHeld (st : State φ) : (st.release scr ev).btnHeld = st.btnHeld := by
  rw [release]
  split
  · dsimp only
    split <;> rfl
  · rfl

theorem settle_btnHeld (st : State φ) :
    (st.settle scr ev).btnHeld = (ev.leftDown || (st.btnHeld && !ev.leftUp)) := by
  have hhover : ∀ s : State φ, (s.hover ev).btnHeld = s.btnHeld := by
    intro s
    rw [hover]
    split <;> rfl
  have hdrag : ((st.moveCursor scr ev).dragOn scr ev).btnHeld = st.btnHeld := by
    have hcursor : (st.moveCursor scr ev).btnHeld = st.btnHeld := by
      rw [moveCursor]
      split <;> rfl
    rw [dragOn]
    split
    · exact hcursor
    · exact hcursor
  rw [settle, hhover, holdButton, hdrag]

theorem pollMouse_btnHeld (st : State φ) :
    (st.pollMouse fat scr ev).btnHeld = (ev.leftDown || (st.btnHeld && !ev.leftUp)) := by
  have hsettle : (st.settle scr ev).btnHeld = _ := settle_btnHeld st
  rw [← hsettle, pollMouse]
  dsimp only
  split
  · exact handleRightClick_btnHeld _
  · split
    · split
      · exact clickOn_btnHeld _ _
      · exact (release_btnHeld _).trans (clickOn_btnHeld _ _)
    · exact release_btnHeld _

end Held

section Drags

theorem settle_drag_none {st : State φ} (h : st.wm.drag = none) :
    (st.settle scr ev).wm.drag = none := by
  have hdesk : (st.settle scr ev).desk = _ := settle_desk st
  exact (congrArg (fun d : Desk => d.wm.drag) hdesk).trans (WmOp.run_drag_none (dragOps_plain st) h)

theorem handleRightClick_drag_none {st : State φ} (h : st.wm.drag = none) :
    (st.handleRightClick scr r).wm.drag = none := by
  have hdesk : (st.handleRightClick scr r).desk = _ := handleRightClick_desk st
  exact (congrArg (fun d : Desk => d.wm.drag) hdesk).trans
    (WmOp.run_drag_none (rightClickOps_plain st) h)

theorem release_drag_none {st : State φ} (h : st.wm.drag = none ∨ ev.leftUp = true) :
    (st.release scr ev).wm.drag = none := by
  rw [release]
  by_cases hup : ev.leftUp = true
  · rw [if_pos hup]
    rfl
  · rw [if_neg hup]
    exact h.resolve_right hup

theorem pollMouse_drag_none {st : State φ} (hclick : st.isClick ev = false)
    (h : st.wm.drag = none ∨ ev.leftUp = true) : (st.pollMouse fat scr ev).wm.drag = none := by
  rw [pollMouse]
  dsimp only
  rw [hclick]
  by_cases hright : ev.rightDown = true ∧ (st.settle scr ev).wm.drag.isNone = true
  · rw [if_pos hright]
    exact handleRightClick_drag_none (Option.isNone_iff_eq_none.mp hright.2)
  · rw [if_neg hright]
    exact release_drag_none (h.imp_left settle_drag_none)

end Drags

end State

end CoeleoOs.Ui
