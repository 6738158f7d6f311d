import CoeleoOs.Ui.Keys

/-!
# Switching windows with Tab

Each press of the Tab that the compositor takes itself brings forward the frame above the
visible top. With the terminal on top, Tab goes to the terminal and is not such a press.
-/

namespace CoeleoOs.Ui
open CoeleoOs.Lib CoeleoOs.Fs

def Frame.shown (f : Frame) : Frame := { f with minimized := false }

namespace Wm

/-- The frame that the user sees on top. -/
def topFrame (w : Wm) : Option Frame := w.visibleTop.bind fun i => w.frames[i]?

@[simp] theorem setFocus_frames (w : Wm) (g : Focus) : (w.setFocus g).frames = w.frames := rfl

theorem focusFrame_frames (w : Wm) (i : ℕ) : (w.focusFrame i).frames = w.frames := by
  rw [focusFrame]
  split <;> rfl

theorem showFrame_frames (w : Wm) (i : ℕ) :
    (w.showFrame i).frames = ZOrder.raise (w.frames.modify i Frame.shown) i :=
  focusFrame_frames _ _

end Wm

namespace State

variable {φ η : Type}

theorem applyKeyTab_frames (st : State φ) :
    st.applyKeyTab.wm.frames = ZOrder.showNext (fun f => !f.minimized) Frame.shown
      st.wm.frames := by
  by_cases h : st.wm.frames = []
  · rw [applyKeyTab, setWm, if_pos h, Wm.setFocus_frames, h]
    rfl
  · rw [applyKeyTab, setWm, if_neg h, Wm.showFrame_frames]
    rfl

theorem iterate_applyKeyTab_frames (k : ℕ) (st : State φ) :
    (applyKeyTab^[k] st).wm.frames = (ZOrder.showNext (fun f => !f.minimized) Frame.shown)^[k]
      st.wm.frames := by
  induction k generalizing st with
  | zero => rfl
  | succ k ih =>
    rw [Function.iterate_succ_apply, ih, applyKeyTab_frames, Function.iterate_succ_apply]

theorem applyKey_tab (fat : FatIo φ η) (scr : Screen) (r : Reply) {st : State φ}
    (h : st.menus.anyOpen = false) : st.applyKey fat scr r keyTab = st.applyKeyTab := by
  simp only [Menus.anyOpen, Bool.or_eq_false_iff] at h
  obtain ⟨⟨⟨⟨hpower, hrunner⟩, hlauncher⟩, hdesk⟩, hfiles⟩ := h
  have hne : ¬keyTab = keyRunner := by decide
  simp only [applyKey, if_neg hne, hpower, hrunner, hlauncher, hdesk, hfiles,
    Bool.false_eq_true, if_false]
  split
  · rfl
  · rfl
  · rfl

/-- As many presses as there are frames bring each frame to the visible top once. -/
theorem tab_visits_all (st : State φ) :
    ((List.range st.wm.frames.length).map fun k => (applyKeyTab^[k + 1] st).wm.topFrame).Perm
      (st.wm.frames.map fun f => some f.shown) := by
  have htop (k : ℕ) : (applyKeyTab^[k] st).wm.topFrame = ZOrder.top (fun f => !f.minimized)
      ((ZOrder.showNext (fun f => !f.minimized) Frame.shown)^[k] st.wm.frames) := by
    rw [← iterate_applyKeyTab_frames]
    rfl
  simp only [htop]
  exact ZOrder.tops_perm (fun _ => rfl) st.wm.frames

end State

end CoeleoOs.Ui
