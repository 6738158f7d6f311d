import CoeleoOs.Ui.Comp
import CoeleoOs.Ui.Focus

/-!
# The keyboard follows the topmost window

In a run of the compositor the focus and its copies describe the topmost visible frame as
long as no frame is raised from the title bar, an edge, the maximise button or the task bar
while another kind of frame has the keyboard. A queued Delete is applied to the file
manager also when the terminal is on top.
-/

namespace CoeleoOs.Ui.State
open CoeleoOs.Lib CoeleoOs.Lib.Machine CoeleoOs.Fs
open CoeleoOs.Task (Bytes)

variable {φ η : Type} {fat : FatIo φ η} {scr : Screen} {st : State φ} {ev : Mouse} {r : Reply}

section Steps

theorem pushKey_wm (k : UInt8) (st : State φ) : (st.pushKey k).wm = st.wm := by
  unfold pushKey
  split
  · rfl
  · rfl

theorem irqTab_wm (st : State φ) : st.irqTab.wm = st.wm := by
  unfold irqTab
  split
  · rfl
  · split
    · exact pushKey_wm _ _
    · rfl

theorem irqEsc_wm (st : State φ) : st.irqEsc.wm = st.wm := by
  unfold irqEsc
  split
  · exact pushKey_wm _ _
  · rfl

theorem irqFilesKey_wm (key : FilesKey) (st : State φ) : (st.irqFilesKey key).wm = st.wm := by
  unfold irqFilesKey
  split
  · exact pushKey_wm _ _
  · rfl

theorem irqChar_wm (b : UInt8) (st : State φ) : (st.irqChar b).wm = st.wm := by
  unfold irqChar
  repeat' split
  all_goals first
    | rfl
    | exact pushKey_wm _ _

theorem dispatch_wm (key : Key) (st : State φ) : (st.dispatch key).wm = st.wm := by
  cases key with
  | tab => exact irqTab_wm st
  | esc => exact irqEsc_wm st
  | altSpace => exact pushKey_wm _ st
  | home => rfl
  | theEnd => rfl
  | files key => exact irqFilesKey_wm key st
  | char b =>
    simp only [dispatch]
    split
    · exact irqFilesKey_wm _ st
    · split
      · exact irqFilesKey_wm _ st
      · split
        · exact irqEsc_wm st
        · exact irqChar_wm b st

theorem ensureFrame_some {mode : PanelMode} {w w' : Wm} {kind : FrameKind} {i : ℕ}
    (h : Wm.ensureFrame scr mode w kind = some (w', i)) : ∃ f, w'.frames[i]? = some f := by
  unfold Wm.ensureFrame at h
  split at h
  · rename_i j hpos
    obtain ⟨rfl, rfl⟩ := Prod.mk.inj (Option.some.inj h)
    obtain ⟨hlt, -⟩ := List.findIdx?_eq_some_iff_getElem.mp hpos
    exact ⟨_, List.getElem?_eq_getElem hlt⟩
  · obtain ⟨p, -, hp⟩ := Option.map_eq_some_iff.mp h
    obtain ⟨rfl, rfl⟩ := Prod.mk.inj hp
    exact ⟨_, List.getElem?_concat_length⟩

theorem showKind_agrees (hw : st.wm.Agrees) (kind : FrameKind) :
    (st.showKind scr kind).wm.Agrees := by
  unfold showKind
  split
  · exact hw
  · rename_i w i h
    obtain ⟨f, hf⟩ := ensureFrame_some h
    exact Wm.showFrame_agrees hf

theorem launch_agrees (hw : st.wm.Agrees) (name : Bytes) : (st.launch scr name).wm.Agrees := by
  unfold launch
  split
  · rename_i st' h
    unfold focusNamed at h
    repeat' split at h
    all_goals cases h
    all_goals exact showKind_agrees hw _
  · split
    · exact showKind_agrees hw _
    · exact hw

theorem runnerLaunch_agrees (hw : st.wm.Agrees) (row : ℕ) :
    (st.runnerLaunch scr row).wm.Agrees := by
  unfold runnerLaunch
  split
  · exact hw
  · have hclosed : (st.setMenus .closeRunner).wm.Agrees := hw
    exact launch_agrees hclosed _

theorem launchIndex_agrees (hw : st.wm.Agrees) (row : ℕ) : (st.launchIndex scr row).wm.Agrees := by
  simp only [launchIndex]
  split
  · exact hw
  · split
    · exact hw
    · split
      · exact hw
      · have hclosed : (st.setMenus .closeLauncher).wm.Agrees := hw
        exact launch_agrees hclosed _

theorem deskMenuActivate_agrees (hw : st.wm.Agrees) : (st.deskMenuActivate scr).wm.Agrees := by
  have hclosed : (st.setMenus .closeDeskMenu).wm.Agrees := hw
  exact showKind_agrees hclosed _

theorem filesMenuActivate_wm (st : State φ) : (st.filesMenuActivate fat r).wm = st.wm := by
  simp only [filesMenuActivate]
  repeat' split
  all_goals rfl

theorem applyDeskAction_same (st : State φ) :
    Wm.SameStack st.wm (st.applyDeskAction fat scr r).wm := by
  unfold applyDeskAction
  split
  · exact .refl _
  · change Wm.SameStack st.wm (st.applyPanelMode scr _).wm
    unfold applyPanelMode
    split
    · exact .refl _
    · exact Wm.reflowMaximized_same _ _ _
  · split
    · exact .refl _
    · exact .refl _

theorem applyKeyTab_agrees (hw : st.wm.Agrees) : st.applyKeyTab.wm.Agrees := by
  simp only [applyKeyTab, setWm]
  split
  · rename_i hnil
    have htop : st.wm.topKind = none := by simp [Wm.topKind, Wm.visibleTop, hnil, ZOrder.rposition]
    rw [Wm.agrees_setFocus hw.client, Wm.topFocus, htop]
    rfl
  · rename_i hne
    have hlt := Nat.mod_lt (st.wm.visibleTop.getD 0 + 1) (List.length_pos_iff.mpr hne)
    exact Wm.showFrame_agrees (List.getElem?_eq_getElem hlt)

theorem confirmKey_wm (k : UInt8) (st : State φ) : (st.confirmKey fat k).wm = st.wm := by
  unfold confirmKey
  repeat' split
  all_goals rfl

theorem runnerKey_agrees (hw : st.wm.Agrees) (k : UInt8) : (st.runnerKey fat scr k).wm.Agrees := by
  unfold runnerKey
  repeat' split
  all_goals first
    | exact hw
    | exact runnerLaunch_agrees hw _

theorem launcherKey_agrees (hw : st.wm.Agrees) (k : UInt8) : (st.launcherKey scr k).wm.Agrees := by
  have hclosed : (st.setMenus .closeLauncher).wm.Agrees := hw
  unfold launcherKey
  repeat' split
  all_goals first
    | exact hw
    | exact launchIndex_agrees hw _
    | exact applyKeyTab_agrees hclosed

theorem filesMenuKey_wm (k : UInt8) (st : State φ) : (st.filesMenuKey fat r k).wm = st.wm := by
  unfold filesMenuKey
  repeat' split
  all_goals first
    | rfl
    | exact filesMenuActivate_wm st

theorem filesKey_agrees (hw : st.wm.Agrees) (k : UInt8) : (st.filesKey fat r k).wm.Agrees := by
  unfold filesKey
  repeat' split
  all_goals first
    | exact hw
    | exact applyKeyTab_agrees hw

theorem applyKey_agrees (hw : st.wm.Agrees) (k : UInt8) : (st.applyKey fat scr r k).wm.Agrees := by
  unfold applyKey
  repeat' split
  all_goals first
    | exact hw
    | exact runnerKey_agrees hw k
    | exact launcherKey_agrees hw k
    | exact deskMenuActivate_agrees hw
    | exact applyKeyTab_agrees hw
    | exact filesKey_agrees hw k
    | exact (applyDeskAction_same st).agrees.mpr hw
    | rw [confirmKey_wm]
      exact hw
    | rw [filesMenuKey_wm]
      exact hw

end Steps

section Mouse

theorem dragOn_same (st : State φ) : Wm.SameStack st.wm (st.dragOn scr ev).wm := by
  unfold dragOn
  split
  · exact Wm.applyDrag_same _ _ _ _ _
  · exact .refl _

theorem settle_same (st : State φ) : Wm.SameStack st.wm (st.settle scr ev).wm := by
  have hcursor : (st.moveCursor scr ev).wm = st.wm := by
    unfold moveCursor
    split
    · rfl
    · rfl
  have hhover : ∀ s : State φ, (s.hover ev).wm = s.wm := by
    intro s
    unfold hover
    split
    · rfl
    · rfl
  rw [settle, hhover, ← hcursor]
  exact dragOn_same _

theorem release_same (st : State φ) : Wm.SameStack st.wm (st.release scr ev).wm := by
  simp only [release]
  split
  · split
    · have h := Wm.applyDrag_same scr (st.work scr) st.cx st.cy st.wm
      exact ⟨h.tags, h.focus, h.files, h.desk, h.client⟩
    · exact ⟨rfl, rfl, rfl, rfl, rfl⟩
  · exact .refl _

theorem closeOutside_wm (st : State φ) : (st.closeOutside scr ev).wm = st.wm := by
  simp only [closeOutside]
  repeat' split
  all_goals rfl

/-- In the task bar: the frame that `focus_frame` finds at the old index of the raised frame
has the same focus. -/
def TaskKeeps (w : Wm) (k : ℕ) : Prop :=
  ∀ i, w.taskFrame k = some i → ∀ f, w.frames[i]? = some f → f.minimized = true ∨
    w.visibleTop ≠ some i → ∀ g, w.frames[i + 1]? = some g → focusOf g.kind = focusOf f.kind

/-- On a frame: what raises it without `set_focus` does so where the topmost frame has the
same focus. -/
def FrameKeeps (w : Wm) : Hit → Prop
  | .title i | .resize i _ | .max i => ∀ f, w.frames[i]? = some f → focusOf f.kind = w.topFocus
  | .client i => ∀ f, w.frames[i]? = some f → isClient f.kind = true → w.topFocus = .term
  | .close _ | .min _ => True

theorem taskFrame_some {w : Wm} {k i : ℕ} (h : w.taskFrame k = some i) :
    ∃ f, w.frames[i]? = some f := by
  have hpos : ∀ kind, i ∈ (w.position kind).toList → ∃ f, w.frames[i]? = some f := by
    intro kind hi
    rw [Option.mem_toList] at hi
    obtain ⟨hlt, -⟩ := List.findIdx?_eq_some_iff_getElem.mp hi
    exact ⟨_, List.getElem?_eq_getElem hlt⟩
  have hmem := List.mem_of_getElem? h
  simp only [Wm.taskFrames, List.mem_append, or_assoc] at hmem
  rcases hmem with hi | hi | hi | hi
  · exact hpos _ hi
  · exact hpos _ hi
  · exact hpos _ hi
  · have hlt := List.mem_range.mp (List.mem_filter.mp hi).1
    exact ⟨_, List.getElem?_eq_getElem hlt⟩

theorem handleTaskClick_agrees {w : Wm} (hw : w.Agrees) (k : ℕ) :
    (w.handleTaskClick k).Agrees ↔ TaskKeeps w k := by
  unfold Wm.handleTaskClick TaskKeeps
  cases hk : w.taskFrame k with
  | none => exact iff_of_true hw nofun
  | some i =>
    obtain ⟨f, hf⟩ := taskFrame_some hk
    simp only [hf, Option.any_some, Option.some.injEq, forall_eq']
    by_cases hmin : f.minimized = true
    · rw [if_pos hmin, Wm.agrees_restoreMin hf]
      simp [hmin]
    · rw [if_neg hmin]
      by_cases htop : w.visibleTop = some i
      · rw [if_pos htop]
        exact iff_of_true (w.minimizeFrame_agrees hw i) fun h =>
          absurd h (not_or.mpr ⟨hmin, not_not.mpr htop⟩)
      · rw [if_neg htop, Wm.agrees_raise_focusFrame hf (eq_false_of_ne_true hmin)]
        simp [htop]

theorem handlePanelClick_agrees (hw : st.wm.Agrees) (h : PanelHit) :
    (st.handlePanelClick fat h).wm.Agrees ↔ ∀ k, h = .task k → TaskKeeps st.wm k := by
  cases h with
  | task k =>
    change (st.wm.handleTaskClick k).Agrees ↔ _
    rw [handleTaskClick_agrees hw]
    simp
  | taskClose k =>
    refine iff_of_true ?_ nofun
    change (st.wm.handleTaskClose k).Agrees
    unfold Wm.handleTaskClose
    split
    · exact hw
    · exact st.wm.closeFrame_agrees hw _
  | none => exact iff_of_true hw nofun
  | launcher => exact iff_of_true hw nofun
  | krunner => exact iff_of_true hw nofun
  | clock => exact iff_of_true hw nofun
  | net => exact iff_of_true hw nofun

variable {f : Frame} {i : ℕ}

theorem beginDrag_same {gx gy : ℤ} {edge : Option Edge} (f : Frame) (st : State φ) :
    Wm.SameStack st.wm (st.beginDrag f gx gy edge).wm := by
  unfold beginDrag
  split
  · exact .refl _
  · exact ⟨rfl, rfl, rfl, rfl, rfl⟩

theorem clickTitle_agrees (hw : st.wm.Agrees) (hf : st.wm.frames[i]? = some f)
    (hvis : f.minimized = false) :
    (st.clickTitle scr ev i f).wm.Agrees ↔ focusOf f.kind = st.wm.topFocus := by
  rw [← hw.focused_iff]
  simp only [clickTitle]
  split
  · obtain ⟨-, hlast⟩ := ZOrder.raise_top (p := fun f => !f.minimized) hf (by simp [hvis])
    rw [← ZOrder.length_raise st.wm.frames i] at hlast
    exact (Wm.agrees_toggleMax (w := st.wm.raise i) _ _ hlast).trans Wm.focused_raise
  · rw [(beginDrag_same f _).agrees]
    exact Wm.agrees_raise hf hvis

theorem clickEdge_agrees (hw : st.wm.Agrees) (hf : st.wm.frames[i]? = some f)
    (hvis : f.minimized = false) (edge : Edge) : (st.clickEdge i f edge).wm.Agrees ↔
    focusOf f.kind = st.wm.topFocus := by
  rw [← hw.focused_iff, clickEdge, (beginDrag_same f _).agrees]
  exact Wm.agrees_raise hf hvis

theorem clickClient_agrees (hw : st.wm.Agrees) (hf : st.wm.frames[i]? = some f)
    (hvis : f.minimized = false) : (st.clickClient fat scr ev i f).1.wm.Agrees ↔
    (isClient f.kind = true → st.wm.topFocus = .term) := by
  unfold clickClient
  split
  · rename_i hkind
    exact iff_of_true ((Wm.agrees_raise_setFocus hf hvis).mpr (by rw [hkind]; rfl))
      (by simp [hkind, isClient])
  · rename_i hkind
    exact iff_of_true ((Wm.agrees_raise_setFocus hf hvis).mpr (by rw [hkind]; rfl))
      (by simp [hkind, isClient])
  · rename_i hkind
    refine iff_of_true ?_ (by simp [hkind, isClient])
    rw [(applyDeskAction_same _).agrees]
    exact (Wm.agrees_raise_setFocus hf hvis).mpr (by rw [hkind]; rfl)
  · rename_i id hkind
    refine (Wm.agrees_raise hf hvis).trans ?_
    rw [hw.focused_iff, hkind]
    simp [focusOf, isClient, eq_comm]

theorem onClientClose_agrees (hw : st.wm.Agrees) (id : ℕ) : (st.onClientClose id).wm.Agrees := by
  unfold onClientClose
  split
  · exact hw
  · exact st.wm.closeFrame_agrees hw _

theorem clickFrame_agrees {hit : Hit} (hw : st.wm.Agrees) (hf : st.wm.frames[hit.frame]? = some f)
    (hvis : f.minimized = false) : (st.clickFrame fat scr ev hit).1.wm.Agrees ↔
    FrameKeeps st.wm hit := by
  unfold clickFrame
  rw [hf]
  cases hit with
  | title i =>
    refine (clickTitle_agrees hw hf hvis).trans ?_
    simp only [Hit.frame] at hf
    simp [FrameKeeps, hf]
  | resize i edge =>
    refine (clickEdge_agrees hw hf hvis edge).trans ?_
    simp only [Hit.frame] at hf
    simp [FrameKeeps, hf]
  | max i =>
    refine (Wm.agrees_toggleMax _ _ hf).trans (hw.focused_iff.trans ?_)
    simp only [Hit.frame] at hf
    simp [FrameKeeps, hf]
  | client i =>
    refine (clickClient_agrees hw hf hvis).trans ?_
    simp only [Hit.frame] at hf
    simp [FrameKeeps, hf]
  | min i => exact iff_of_true (st.wm.minimizeFrame_agrees hw i) trivial
  | close i =>
    refine iff_of_true ?_ trivial
    dsimp only
    split
    · exact onClientClose_agrees hw _
    · exact st.wm.closeFrame_agrees hw i

/-- What a click goes to decides whether the focus follows. -/
def TargetKeeps (ev : Mouse) (w : Wm) : Target → Prop
  | .frame hit => FrameKeeps w hit
  | .panel => w.drag.isNone = true → ∀ k, ev.panel = .task k → TaskKeeps w k
  | _ => True

theorem target_frame {hit : Hit} (h : st.target scr ev = .frame hit) :
    hitTest st.wm.frames st.x st.y = some hit := by
  have hrest : ∀ o : Option Target, (∀ t ∈ o, t ≠ .frame hit) → ∀ t, o.getD t = .frame hit →
      t = .frame hit := by
    intro o ho t ht
    cases o with
    | none => exact ht
    | some t' => exact absurd ht (ho t' rfl)
  unfold target at h
  split at h
  · cases h
  · split at h
    · cases h
    · split at h
      · cases h
      · have hlast := hrest _ ?_ _ h
        · split at hlast
          · cases hlast
          · split at hlast
            · rename_i hit' hhit
              obtain rfl := Target.frame.inj hlast
              exact hhit
            · cases hlast
        · intro t ht hframe
          subst hframe
          rcases Option.or_eq_some_iff.mp ht with hrun | ⟨-, hlaunch⟩
          · split at hrun
            all_goals cases hrun
          · split at hlaunch
            · obtain ⟨row, -, hrow⟩ := Option.map_eq_some_iff.mp hlaunch
              cases hrow
            · cases hlaunch

theorem clickOn_agrees (hw : st.wm.Agrees) :
    (st.clickOn fat scr ev (st.target scr ev)).1.wm.Agrees ↔
    TargetKeeps ev st.wm (st.target scr ev) := by
  have hout : (st.closeOutside scr ev).wm = st.wm := closeOutside_wm st
  have hw' : (st.closeOutside scr ev).wm.Agrees := by rwa [hout]
  cases htarget : st.target scr ev with
  | confirm =>
    refine iff_of_true ?_ trivial
    change (st.handleConfirmClick fat ev.confirm).wm.Agrees
    unfold handleConfirmClick
    split
    all_goals exact hw
  | deskMenu =>
    refine iff_of_true ?_ trivial
    change (st.handleDeskMenuClick scr ev.onDeskMenu).wm.Agrees
    unfold handleDeskMenuClick
    split
    · exact deskMenuActivate_agrees hw
    · exact hw
  | filesMenu =>
    refine iff_of_true ?_ trivial
    change (st.handleFilesMenuClick fat ev.reply ev.filesMenuRow ev.onFilesMenu).wm.Agrees
    unfold handleFilesMenuClick
    split
    · rw [filesMenuActivate_wm]
      exact hw
    · split
      · exact hw
      · exact hw
  | runnerRow i => exact iff_of_true (runnerLaunch_agrees hw i) trivial
  | runnerQuery => exact iff_of_true hw trivial
  | launcherRow row => exact iff_of_true (launchIndex_agrees hw' row) trivial
  | desktop => exact iff_of_true hw' trivial
  | panel =>
    simp only [clickOn, TargetKeeps, hout]
    split
    · rename_i hdrag
      rw [handlePanelClick_agrees hw', hout]
      simp [hdrag]
    · rename_i hdrag
      exact iff_of_true hw' fun h => absurd h hdrag
  | frame hit =>
    obtain ⟨f, hf, hvis⟩ := Wm.hitTest_visible (target_frame htarget)
    rw [clickOn, clickFrame_agrees hw' (by rwa [hout]) hvis, hout]
    rfl

theorem handleRightClick_agrees (hw : st.wm.Agrees) : (st.handleRightClick scr r).wm.Agrees := by
  have hraise : ∀ i, hitTest st.wm.frames st.x st.y = some (.client i) →
      (st.wm.frames[i]?.any fun f => f.kind = .files) = true →
      ((st.wm.raise i).setFocus .files).Agrees := by
    intro i hhit hfiles
    obtain ⟨f, hf, hvis⟩ := Wm.hitTest_visible hhit
    simp only [Hit.frame] at hf
    rw [hf, Option.any_some, decide_eq_true_eq] at hfiles
    exact (Wm.agrees_raise_setFocus hf hvis).mpr (by rw [hfiles]; rfl)
  unfold handleRightClick
  repeat' split
  all_goals first
    | exact hw
    | exact hraise _ ‹_› ‹_›

theorem pollMouse_agrees (hw : st.wm.Agrees) : (st.pollMouse fat scr ev).wm.Agrees ↔
    (st.isClick ev = true → ¬(ev.rightDown = true ∧ (st.settle scr ev).wm.drag.isNone = true) →
      TargetKeeps ev (st.settle scr ev).wm ((st.settle scr ev).target scr ev)) := by
  have hs : (st.settle scr ev).wm.Agrees := (settle_same st).agrees.mpr hw
  simp only [pollMouse]
  split
  · rename_i hright
    exact iff_of_true (handleRightClick_agrees hs) fun _ h => absurd hright h
  · rename_i hright
    have hrelease : ∀ q : State φ × Bool, (if q.2 then q.1 else q.1.release scr ev).wm.Agrees ↔
        q.1.wm.Agrees := by
      intro q
      split
      · rfl
      · exact (release_same q.1).agrees
    rw [hrelease]
    split
    · rename_i hclick
      rw [clickOn_agrees hs]
      exact ⟨fun h _ _ => h, fun h => h hclick hright⟩
    · rename_i hclick
      exact iff_of_true hs fun h => absurd h hclick

end Mouse

section Runs

def isKey : Event φ → Bool
  | .key _ => true
  | _ => false

/-- A queued Delete is applied and a file is gone. -/
def DeletesByKey (t : Trans (State φ) (Event φ)) : Prop :=
  isKey t.act = true ∧ t.pre.keys.head? = some keyDel ∧ t.post.deleted ≠ t.pre.deleted

instance (t : Trans (State φ) (Event φ)) : Decidable (DeletesByKey t) :=
  inferInstanceAs (Decidable (_ ∧ _ ∧ _))

/-- Delete is not the next key when no popup takes it, the terminal or nothing is on top, and
the selection of the file manager could be removed. -/
def DeleteKeeps (fat : FatIo φ η) (st : State φ) : Prop :=
  st.keys.head? = some keyDel → st.menus.anyOpen = false → st.wm.topKind = none ∨
    st.wm.topKind = some .vt → ¬st.fm.Removable fat st.mount

/-- The frame that a step raises without `set_focus` has the focus of the topmost one. -/
def Keeps (fat : FatIo φ η) (scr : Screen) (t : Trans (State φ) (Event φ)) : Prop :=
  match t.act with
  | .key _ => DeleteKeeps fat t.pre
  | .mouse ev =>
    let s := t.pre.settle scr ev
    t.pre.isClick ev = true → ¬(ev.rightDown = true ∧ s.wm.drag.isNone = true) →
      TargetKeeps ev s.wm (s.target scr ev)
  | _ => True

/-- The state describes its topmost frame after the step, and a Delete has removed a file
only if that was the file manager before. -/
def Follows (t : Trans (State φ) (Event φ)) : Prop :=
  t.post.wm.Agrees ∧ (DeletesByKey t → t.pre.wm.topKind = some .files)

instance (t : Trans (State φ) (Event φ)) : Decidable (Follows t) :=
  inferInstanceAs (Decidable (_ ∧ (_ → _)))

theorem applyKey_del (st : State φ) : st.applyKey fat scr r keyDel =
    if st.menus.anyOpen then st
    else
      match st.wm.topKind with
      | some (.client _) => st
      | some .settings => st.applyDeskAction fat scr r
      | _ => st.deleteSel fat := by
  have hrunner : st.runnerKey fat scr keyDel = st := rfl
  have hmenu : (if keyDel = keyEsc then st.setMenus .closeDeskMenu
      else if keyDel = keyEnter then st.deskMenuActivate scr else st) = st := rfl
  have hpanel : st.filesKey fat r keyDel = st.deleteSel fat := rfl
  have htab : keyDel ≠ keyTab := by decide
  rw [applyKey, if_neg (by decide), show st.confirmKey fat keyDel = st from rfl, hrunner,
    show st.launcherKey scr keyDel = st from rfl, hmenu, show st.filesMenuKey fat r keyDel = st
      from rfl, hpanel]
  simp only [if_neg htab, Menus.anyOpen, Bool.or_eq_true]
  by_cases hpower : st.menus.powerDlg.isSome = true
  · simp [hpower]
  · by_cases hrun : st.menus.runnerOpen = true
    · simp [hrun]
    · by_cases hlaunch : st.menus.launcherOpen = true
      · simp [hlaunch]
      · by_cases hdesk : st.menus.deskMenuOpen = true
        · simp [hdesk]
        · by_cases hfiles : st.menus.filesMenuOpen = true
          · simp [hfiles]
          · cases st.wm.topKind with
            | none => simp [hpower, hrun, hlaunch, hdesk, hfiles]
            | some kind => cases kind with
              | vt => simp [hpower, hrun, hlaunch, hdesk, hfiles]
              | files => simp [hpower, hrun, hlaunch, hdesk, hfiles]
              | settings => simp [hpower, hrun, hlaunch, hdesk, hfiles]
              | client id => simp [hpower, hrun, hlaunch, hdesk, hfiles]

theorem applyDeskAction_deleted (st : State φ) :
    (st.applyDeskAction fat scr r).deleted = st.deleted := by
  unfold applyDeskAction
  split
  · rfl
  · change (st.applyPanelMode scr _).deleted = st.deleted
    unfold applyPanelMode
    split
    · rfl
    · rfl
  · split
    · rfl
    · rfl

theorem deleteSel_deleted (st : State φ) :
    (st.deleteSel fat).deleted ≠ st.deleted ↔ st.fm.Removable fat st.mount := by
  rw [← Fm.deleteSel_removes, deleteSel]
  cases (st.fm.deleteSel fat st.mount).1 with
  | none => simp
  | some path => simp

theorem key_follows {ks : List UInt8} (hkeys : st.keys = keyDel :: ks) :
    (({ st with keys := ks }.applyKey fat scr r keyDel).deleted ≠ st.deleted →
      st.wm.topKind = some .files) ↔ DeleteKeeps fat st := by
  have hhead : st.keys.head? = some keyDel := by rw [hkeys, List.head?_cons]
  rw [applyKey_del, DeleteKeeps]
  simp only [hhead, forall_const]
  by_cases hopen : st.menus.anyOpen = true
  · simp [hopen]
  · rw [if_neg hopen]
    have hsame : ({ st with keys := ks }.applyDeskAction fat scr r).deleted = st.deleted :=
      applyDeskAction_deleted _
    have hdel : ({ st with keys := ks }.deleteSel fat).deleted ≠ st.deleted ↔
        st.fm.Removable fat st.mount :=
      deleteSel_deleted _
    cases htop : st.wm.topKind with
    | none => simp [hopen, hdel]
    | some kind =>
      cases kind with
      | vt => simp [hopen, hdel]
      | files => simp
      | settings => simp [hsame]
      | client id => simp

theorem onClientCreate_agrees (id cw ch ox oy : ℕ) (st : State φ) :
    (st.onClientCreate id cw ch ox oy).wm.Agrees := by
  let w : Wm := { st.wm with frames := st.wm.frames ++ [frameNew (.client id) ox oy cw ch] }
  have htop : w.visibleTop = some st.wm.frames.length := ZOrder.rposition_concat rfl
  have hterm : w.topFocus = .term := by
    rw [Wm.topFocus, Wm.topKind_top htop List.getElem?_concat_length]
    rfl
  change (w.setFocus .term).syncClientTop.Agrees
  rw [← hterm]
  exact Wm.setFocus_sync_agrees w

theorem step_follows {t : Trans (State φ) (Event φ)}
    (hstep : step fat scr t.pre t.act = some t.post) (hw : t.pre.wm.Agrees) : Follows t ↔
    Keeps fat scr t := by
  obtain ⟨st, act, st'⟩ := t
  dsimp only at hstep hw
  have hother : isKey act = false → ¬DeletesByKey ⟨st, act, st'⟩ := by
    intro hno hdel
    exact Bool.false_ne_true (hno.symm.trans hdel.1)
  cases act with
  | irq key =>
    obtain rfl := Option.some.inj hstep
    refine iff_of_true ⟨?_, fun h => absurd h (hother rfl)⟩ trivial
    change (st.dispatch key).wm.Agrees
    rwa [dispatch_wm]
  | key r =>
    simp only [step] at hstep
    split at hstep
    · cases hstep
    · rename_i k ks hkeys
      obtain rfl := Option.some.inj hstep
      have hagrees : ({ st with keys := ks }.applyKey fat scr r k).wm.Agrees := by
        have htaken : ({ st with keys := ks } : State φ).wm.Agrees := hw
        exact applyKey_agrees htaken k
      by_cases hk : k = keyDel
      · subst hk
        constructor
        · exact fun h => (key_follows hkeys).mp fun hdel =>
            h.2 ⟨rfl, congrArg List.head? hkeys, hdel⟩
        · exact fun h => ⟨hagrees, fun hdel => (key_follows hkeys).mpr h hdel.2.2⟩
      · have hhead : st.keys.head? ≠ some keyDel := by
          rw [hkeys, List.head?_cons]
          exact fun heq => hk (Option.some.inj heq)
        exact iff_of_true ⟨hagrees, fun hdel => absurd hdel.2.1 hhead⟩ fun hdel => absurd hdel hhead
  | mouse ev =>
    obtain rfl := Option.some.inj hstep
    refine Iff.trans ⟨fun h => h.1, fun h => ⟨h, fun hdel => absurd hdel (hother rfl)⟩⟩ ?_
    exact pollMouse_agrees hw
  | clientCreate id cw ch ox oy =>
    obtain rfl := Option.some.inj hstep
    exact iff_of_true ⟨onClientCreate_agrees id cw ch ox oy st, fun h => absurd h (hother rfl)⟩
      trivial
  | clientClose id =>
    obtain rfl := Option.some.inj hstep
    exact iff_of_true ⟨onClientClose_agrees hw id, fun h => absurd h (hother rfl)⟩ trivial
  | volume m =>
    obtain rfl := Option.some.inj hstep
    exact iff_of_true ⟨hw, fun h => absurd h (hother rfl)⟩ trivial

variable (mode : PanelMode) (wall : Option Bytes) (m : Mount φ)

abbrev Run (fat : FatIo φ η) (scr : Screen) (ts : List (Trans (State φ) (Event φ))) (s : State φ) :
    Prop :=
  Path (step fat scr) (init fat mode wall m) ts s

theorem init_agrees : (init fat mode wall m).wm.Agrees := ⟨⟨rfl, rfl, rfl⟩, rfl⟩

variable {mode wall m}

/-- The focus and its copies describe the topmost visible frame in every state of a run, and
Delete removes files only for a file manager on top, exactly if no step of the run raises a
frame with another focus than the topmost one by a press or in the task bar, and no Delete is
applied to a removable selection under a terminal or an empty desktop. -/
theorem focus_follows_iff {ts : List (Trans (State φ) (Event φ))} {s : State φ}
    (h : Run mode wall m fat scr ts s) : ((init fat mode wall m).wm.Agrees ∧ ∀ t ∈ ts, Follows t) ↔
    ∀ t ∈ ts, Keeps fat scr t := by
  rw [and_iff_right (init_agrees mode wall m)]
  exact h.forall_iff (I := fun s => s.wm.Agrees) (init_agrees mode wall m) (fun t => step_follows)
    fun t hs hw hc => ((step_follows hs hw).mpr hc).1

def listFat : FatIo (List (Bytes × Bytes)) Bytes :=
  { rootFat with
    openFile := fun fs rel => if fs.any (·.1 = rel) then .ok rel else .error .notFound
    seek := fun _ file _ => (true, file)
    read := fun fs file n => ((fs.find? (·.1 = file)).map fun f => f.2.take n, file)
    write := fun fs file src => (some src.length, file, (rootFat.writeAll fs file src).2.2)
    remove := fun fs rel =>
      if fs.any (·.1 = rel) then (.ok (), fs.filter (·.1 ≠ rel)) else (.error .notFound, fs)
    remount := fun fs => (true, some fs) }

def oneFile : Mount (List (Bytes × Bytes)) := ⟨some [(appName "a", [0x78])], [slash]⟩

def screen : Screen := ⟨1024, 768, 16, some (640, 400)⟩

def noReply : Reply := ⟨.init rootFat oneFile, false, .none, false⟩

def pressBy (dx dy : ℤ) : Mouse where
  dx := dx
  dy := dy
  leftDown := true
  leftUp := false
  rightDown := false
  t := 100
  confirm := .outside
  onDeskMenu := false
  onFilesMenu := false
  filesMenuRow := none
  krunner := .outside
  onLauncher := false
  launcherRow := none
  panel := .none
  reply := noReply

def openBoth : List (Event (List (Bytes × Bytes))) :=
  [.irq .altSpace, .key noReply, .irq (.files .down), .key noReply, .irq (.files .enter),
    .key noReply, .irq .altSpace, .key noReply, .irq (.files .enter), .key noReply]

theorem delete_in_files : ∃ ts s, Run .float none oneFile listFat screen ts s ∧
    ((init listFat .float none oneFile).wm.Agrees ∧ ∀ t ∈ ts, Follows t) ∧
    (∀ t ∈ ts, Keeps listFat screen t) ∧ ∃ t ∈ ts, DeletesByKey t := by
  obtain ⟨⟨ts, s⟩, hrun, hp⟩ :=
    exists_path_of_replay (step listFat screen) (init listFat .float none oneFile)
    (openBoth ++ [.irq (.files .delete), .key noReply])
    (fun r => (r.1.all fun t => decide (Follows t)) && r.1.any fun t => decide (DeletesByKey t))
    (by decide)
  simp only [Bool.and_eq_true, List.all_eq_true, List.any_eq_true, decide_eq_true_eq] at hp
  have hfollows : (init listFat .float none oneFile).wm.Agrees ∧ ∀ t ∈ ts, Follows t :=
    ⟨init_agrees _ _ _, hp.1⟩
  exact ⟨ts, s, hrun, hfollows, (focus_follows_iff hrun).mp hfollows, hp.2⟩

/-- A press on the title bar of the terminal behind the file manager raises it, and the file
manager keeps the keyboard: the Delete that follows removes a file. -/
theorem title_bar_keeps_focus : ∃ ts s, Run .float none oneFile listFat screen ts s ∧
    (∃ t ∈ ts, ¬t.post.wm.Agrees) ∧ ∃ t ∈ ts, DeletesByKey t ∧ t.pre.wm.topKind = some .vt := by
  obtain ⟨⟨ts, s⟩, hrun, hp⟩ :=
    exists_path_of_replay (step listFat screen) (init listFat .float none oneFile)
    (openBoth ++ [.mouse (pressBy 44 (-36)), .irq (.files .delete), .key noReply])
    (fun r => (r.1.any fun t => decide (¬t.post.wm.Agrees)) &&
      r.1.any fun t => decide (DeletesByKey t ∧ t.pre.wm.topKind = some .vt)) (by decide)
  simp only [Bool.and_eq_true, List.any_eq_true, decide_eq_true_eq] at hp
  exact ⟨ts, s, hrun, hp⟩

end Runs

end CoeleoOs.Ui.State
