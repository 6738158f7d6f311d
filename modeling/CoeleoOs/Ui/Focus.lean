import CoeleoOs.Ui.Frames

/-!
# Focus and the topmost frame

What each operation on the frames does to the topmost visible frame, to the focus and to
the flags that the interrupt handlers read.
-/

namespace CoeleoOs.Ui.Wm
open CoeleoOs.Lib

variable {w w' : Wm} {f : Frame} {i : ℕ}

/-- The focus and its two flags are those of `g`. -/
structure Focused (w : Wm) (g : Focus) : Prop where
  focus : w.focus = g
  files : w.focusFiles = decide (g = .files)
  desk : w.focusDesk = decide (g = .desk)

def topFocus (w : Wm) : Focus := (w.topKind.map focusOf).getD .term

/-- The focus and all its copies describe the topmost visible frame. -/
structure Agrees (w : Wm) : Prop where
  focused : w.Focused w.topFocus
  client : w.clientTop = w.topKind.any isClient

instance (w : Wm) : Decidable w.Agrees :=
  decidable_of_iff ((w.focus = w.topFocus ∧ w.focusFiles = decide (w.topFocus = .files) ∧
      w.focusDesk = decide (w.topFocus = .desk)) ∧ w.clientTop = w.topKind.any isClient)
    ⟨fun h => ⟨⟨h.1.1, h.1.2.1, h.1.2.2⟩, h.2⟩, fun h => ⟨⟨h.1.1, h.1.2, h.1.3⟩, h.2⟩⟩

def tags (w : Wm) : List (FrameKind × Bool) := w.frames.map fun f => (f.kind, f.minimized)

/-- The frames have moved or changed their size at most. -/
structure SameStack (w w' : Wm) : Prop where
  tags : w'.tags = w.tags
  focus : w'.focus = w.focus
  files : w'.focusFiles = w.focusFiles
  desk : w'.focusDesk = w.focusDesk
  client : w'.clientTop = w.clientTop

theorem topKind_tags (w : Wm) :
    w.topKind = (ZOrder.rposition (fun t => !t.2) w.tags).bind fun i =>
      w.tags[i]?.map Prod.fst := by
  simp only [tags, ZOrder.rposition_map, List.getElem?_map, Option.map_map]
  rfl

theorem SameStack.topKind (h : SameStack w w') : w'.topKind = w.topKind := by
  rw [topKind_tags, topKind_tags, h.tags]

theorem SameStack.refl (w : Wm) : SameStack w w := ⟨rfl, rfl, rfl, rfl, rfl⟩

theorem SameStack.agrees (h : SameStack w w') : w'.Agrees ↔ w.Agrees := by
  have key : ∀ {v v' : Wm}, SameStack v v' → v.Agrees → v'.Agrees := by
    intro v v' hs ha
    refine ⟨⟨?_, ?_, ?_⟩, ?_⟩
    · rw [hs.focus, topFocus, hs.topKind]
      exact ha.focused.focus
    · rw [hs.files, topFocus, hs.topKind]
      exact ha.focused.files
    · rw [hs.desk, topFocus, hs.topKind]
      exact ha.focused.desk
    · rw [hs.client, hs.topKind]
      exact ha.client
  exact ⟨key ⟨h.tags.symm, h.focus.symm, h.files.symm, h.desk.symm, h.client.symm⟩, key h⟩

theorem sameStack_modify {g : Frame → Frame}
    (hg : ∀ f, w.frames[i]? = some f → (g f).kind = f.kind ∧ (g f).minimized = f.minimized) :
    SameStack w (w.modify i g) := by
  refine ⟨?_, rfl, rfl, rfl, rfl⟩
  apply List.ext_getElem?
  intro j
  simp only [tags, modify, List.getElem?_map, List.getElem?_modify]
  by_cases hij : i = j
  · subst hij
    cases hf : w.frames[i]? with
    | none => rfl
    | some f => simp [hg f hf]
  · simp [hij]

theorem topKind_top (hi : w.visibleTop = some i) (hf : w.frames[i]? = some f) :
    w.topKind = some f.kind := by
  simp [topKind, hi, hf]

theorem focused_setFocus (w : Wm) (g : Focus) : (w.setFocus g).Focused g := ⟨rfl, rfl, rfl⟩

theorem Focused.unique {g g' : Focus} (h : w.Focused g) (h' : w.Focused g') : g = g' :=
  h.focus.symm.trans h'.focus

theorem agrees_iff_focused (hc : w.clientTop = w.topKind.any isClient) :
    w.Agrees ↔ w.Focused w.topFocus :=
  ⟨fun h => h.focused, fun h => ⟨h, hc⟩⟩

theorem agrees_setFocus {g : Focus} (hc : w.clientTop = w.topKind.any isClient) :
    (w.setFocus g).Agrees ↔ g = w.topFocus := by
  rw [agrees_iff_focused (w := w.setFocus g) hc]
  constructor
  · exact fun h => (focused_setFocus w g).unique h
  · rintro rfl
    exact focused_setFocus w _

theorem focusFrame_eq (h : w.frames[i]? = some f) :
    w.focusFrame i = w.setFocus (focusOf f.kind) := by
  rw [focusFrame, h]

theorem setFocus_sync_agrees (w : Wm) : (w.setFocus w.topFocus).syncClientTop.Agrees :=
  ⟨⟨rfl, rfl, rfl⟩, rfl⟩

theorem retargetFocus_agrees (w : Wm) : w.retargetFocus.Agrees := by
  have htop : w.retargetFocus = (w.setFocus w.topFocus).syncClientTop := by
    unfold retargetFocus
    split
    · rename_i htop
      rw [topFocus, topKind, htop, Option.bind_none, Option.map_none, Option.getD_none]
    · rename_i i htop
      obtain ⟨f, hf, -⟩ := ZOrder.rposition_some htop
      rw [focusFrame_eq hf, topFocus, topKind_top htop hf, Option.map_some, Option.getD_some]
  rw [htop]
  exact setFocus_sync_agrees w

theorem topKind_raise (hf : w.frames[i]? = some f) (hvis : f.minimized = false) :
    (w.raise i).topKind = some f.kind := by
  obtain ⟨hpos, hget⟩ := ZOrder.raise_top (p := fun f => !f.minimized) hf (by simp [hvis])
  exact topKind_top (w := w.raise i) hpos hget

theorem raise_client (w : Wm) (i : ℕ) : (w.raise i).clientTop = (w.raise i).topKind.any isClient :=
  rfl

theorem focused_raise {g : Focus} : (w.raise i).Focused g ↔ w.Focused g :=
  ⟨fun h => ⟨h.focus, h.files, h.desk⟩, fun h => ⟨h.focus, h.files, h.desk⟩⟩

theorem agrees_raise (hf : w.frames[i]? = some f) (hvis : f.minimized = false) :
    (w.raise i).Agrees ↔ w.Focused (focusOf f.kind) := by
  rw [agrees_iff_focused (raise_client w i), focused_raise, topFocus, topKind_raise hf hvis,
    Option.map_some, Option.getD_some]

theorem Agrees.focused_iff (hw : w.Agrees) {g : Focus} : w.Focused g ↔ g = w.topFocus := by
  constructor
  · exact fun h => h.unique hw.focused
  · rintro rfl
    exact hw.focused

theorem agrees_raise_setFocus {g : Focus} (hf : w.frames[i]? = some f)
    (hvis : f.minimized = false) : ((w.raise i).setFocus g).Agrees ↔ g = focusOf f.kind := by
  rw [agrees_setFocus (raise_client w i), topFocus, topKind_raise hf hvis, Option.map_some,
    Option.getD_some]

theorem unminimize_getElem? (hf : w.frames[i]? = some f) :
    (w.unminimize i).frames[i]? = some { f with minimized := false } := by
  simp [unminimize, modify, hf]

theorem showFrame_agrees (hf : w.frames[i]? = some f) : (w.showFrame i).Agrees := by
  have hshown := unminimize_getElem? hf
  obtain ⟨-, hget⟩ := ZOrder.raise_top (p := fun f => !f.minimized) hshown rfl
  have hlen :
      ((w.unminimize i).raise i).frames.length - 1 = (w.unminimize i).frames.length - 1 := by
    exact congrArg (· - 1) (ZOrder.length_raise _ i)
  rw [showFrame, focusFrame_eq (f := { f with minimized := false }) (by rw [hlen]; exact hget)]
  exact (agrees_raise_setFocus hshown rfl).mpr rfl

theorem raise_focusFrame (hf : w.frames[i]? = some f) :
    (w.raise i).focusFrame i = (w.raise i).setFocus (focusOf ((w.frames[i + 1]?.getD f).kind)) := by
  refine focusFrame_eq ?_
  obtain ⟨hi, heq⟩ := List.getElem?_eq_some_iff.mp hf
  change (ZOrder.raise w.frames i)[i]? = _
  by_cases hlast : i + 1 < w.frames.length
  · rw [ZOrder.raise_getElem? hlast, List.getElem?_eq_getElem hlast, Option.getD_some]
  · rw [ZOrder.raise_last (by omega), hf, List.getElem?_eq_none (by omega), Option.getD_none]

theorem agrees_raise_focusFrame (hf : w.frames[i]? = some f) (hvis : f.minimized = false) :
    ((w.raise i).focusFrame i).Agrees ↔ ∀ g, w.frames[i + 1]? = some g →
    focusOf g.kind = focusOf f.kind := by
  rw [raise_focusFrame hf, agrees_raise_setFocus hf hvis]
  cases w.frames[i + 1]? with
  | none => simp
  | some g => simp

theorem agrees_restoreMin (hf : w.frames[i]? = some f) :
    (w.restoreMin i).Agrees ↔ ∀ g, w.frames[i + 1]? = some g → focusOf g.kind = focusOf f.kind := by
  have hnext : (w.unminimize i).frames[i + 1]? = w.frames[i + 1]? := by
    simp [unminimize, modify]
  rw [restoreMin, agrees_raise_focusFrame (unminimize_getElem? hf) rfl, hnext]

theorem minimizeFrame_agrees (hw : w.Agrees) (i : ℕ) : (w.minimizeFrame i).Agrees := by
  unfold minimizeFrame
  split
  · exact hw
  · split
    · exact hw
    · exact retargetFocus_agrees _

theorem closeFrame_agrees (hw : w.Agrees) (i : ℕ) : (w.closeFrame i).Agrees := by
  unfold closeFrame
  split
  · exact hw
  · exact retargetFocus_agrees _

theorem maxFrame_kind (scr : Screen) (work : ℕ) (f : Frame) :
    (maxFrame scr work f).kind = f.kind ∧ (maxFrame scr work f).minimized = false := by
  simp only [maxFrame]
  split
  · exact ⟨rfl, rfl⟩
  · exact ⟨rfl, rfl⟩

theorem agrees_toggleMax (scr : Screen) (work : ℕ) (hf : w.frames[i]? = some f) :
    (toggleMax scr work w i).Agrees ↔ w.Focused (focusOf f.kind) := by
  obtain ⟨hkind, hmin⟩ := maxFrame_kind scr work f
  have hget : (w.modify i (maxFrame scr work)).frames[i]? = some (maxFrame scr work f) := by
    simp [modify, hf]
  rw [toggleMax, agrees_raise hget hmin, hkind]
  exact ⟨fun h => ⟨h.focus, h.files, h.desk⟩, fun h => ⟨h.focus, h.files, h.desk⟩⟩

theorem reflowMaximized_same (scr : Screen) (work : ℕ) (w : Wm) :
    SameStack w (reflowMaximized scr work w) := by
  have htag : ∀ f, (reflowFrame scr work f).kind = f.kind ∧ (reflowFrame scr work f).minimized =
      f.minimized := by
    intro f
    unfold reflowFrame
    split
    · exact ⟨rfl, rfl⟩
    · exact ⟨rfl, rfl⟩
  refine ⟨?_, rfl, rfl, rfl, rfl⟩
  simp [tags, reflowMaximized, htag]

theorem applyDrag_same (scr : Screen) (work : ℕ) (cx cy : ℤ) (w : Wm) :
    SameStack w (applyDrag scr work cx cy w) := by
  unfold applyDrag
  split
  · exact .refl w
  · split
    · exact ⟨rfl, rfl, rfl, rfl, rfl⟩
    · split
      · exact sameStack_modify fun f _ => ⟨rfl, rfl⟩
      · refine sameStack_modify fun f _ => ?_
        unfold resizeFrame
        split
        · exact ⟨rfl, rfl⟩
        · exact ⟨rfl, rfl⟩

theorem hitFrame_some {x y : ℕ} {hit : Hit} (h : hitFrame x y i f = some hit) :
    f.minimized = false ∧ hit.frame = i := by
  simp only [hitFrame] at h
  split at h
  · cases h
  · rename_i hmin
    refine ⟨eq_false_of_ne_true hmin, ?_⟩
    repeat' split at h
    all_goals cases h
    all_goals rfl

theorem hitTest_visible {x y : ℕ} {hit : Hit} (h : hitTest w.frames x y = some hit) :
    ∃ f, w.frames[hit.frame]? = some f ∧ f.minimized = false := by
  obtain ⟨i, -, hi⟩ := List.exists_of_findSome?_eq_some h
  obtain ⟨f, hf, hhit⟩ := Option.bind_eq_some_iff.mp hi
  obtain ⟨hmin, rfl⟩ := hitFrame_some hhit
  exact ⟨f, hf, hmin⟩

end CoeleoOs.Ui.Wm
