import CoeleoOs.Lib.EarlyExit
import CoeleoOs.Ui.Clients
import CoeleoOs.Ui.FocusTop
import CoeleoOs.Ui.Glyphs

/-!
# The task bar

The entries of the task bar and the frame behind each of them, found by two traversals: the
three windows of the compositor, each found by its kind, stand before those of the clients.
No kind but a client's occurs twice.
-/

namespace CoeleoOs.Ui
open CoeleoOs.Lib CoeleoOs.Lib.Machine CoeleoOs.Lib.EarlyExit CoeleoOs.Fs
open CoeleoOs.Task (Bytes)

structure TaskInfo where
  title : String
  focused : Bool
  minimized : Bool
  icon : Icon
  deriving DecidableEq

namespace State

variable {φ η : Type}

section Traversals

variable (st : State φ)

def kindInfo (kind : FrameKind) (title : String) (icon : Icon) : List TaskInfo :=
  match st.wm.position kind with
  | none => []
  | some i =>
    (st.wm.frames[i]?.map fun f => ⟨title, st.wm.visibleTop = some i, f.minimized, icon⟩).toList

def clientInfos (top : Option ℕ) : ℕ → List Frame → List TaskInfo
  | _, [] => []
  | i, f :: fs =>
    match f.kind with
    | .client _ => ⟨"Application", top = some i, f.minimized, .app⟩ :: clientInfos top (i + 1) fs
    | _ => clientInfos top (i + 1) fs

def taskInfos : List TaskInfo :=
  st.kindInfo .files "Files" .folder ++ st.kindInfo .settings "Settings" .app ++
    st.kindInfo .vt "Terminal" .terminal ++ clientInfos st.wm.visibleTop 0 st.wm.frames

def countKind (k : ℕ) (kind : FrameKind) (n : ℕ) : Except ℕ ℕ :=
  match st.wm.position kind with
  | none => .ok n
  | some i => if n = k then .error i else .ok (n + 1)

def countClients (k : ℕ) : ℕ → ℕ → List Frame → Option ℕ
  | _, _, [] => none
  | n, i, f :: fs =>
    match f.kind with
    | .client _ => if n = k then some i else countClients k (n + 1) (i + 1) fs
    | _ => countClients k n (i + 1) fs

def taskFrame (k : ℕ) : Option ℕ :=
  let counted : Except ℕ ℕ := do
    let n ← st.countKind k .files 0
    let n ← st.countKind k .settings n
    st.countKind k .vt n
  match counted with
  | .error i => some i
  | .ok n => countClients k n 0 st.wm.frames

end Traversals

end State

namespace Wm

variable {w : Wm}

def clientsFrom : ℕ → List Frame → List ℕ
  | _, [] => []
  | i, f :: fs => if isClient f.kind then i :: clientsFrom (i + 1) fs else clientsFrom (i + 1) fs

theorem clientsFrom_eq (fs : List Frame) (i : ℕ) :
    clientsFrom i fs = ((List.range fs.length).filter fun j => fs[j]?.any fun f =>
      isClient f.kind).map (· + i) := by
  induction fs generalizing i with
  | nil => rfl
  | cons f fs ih =>
    have htail :
        ∀ l : List ℕ, (l.filter fun j => (f :: fs)[j + 1]?.any fun f => isClient f.kind).map
          (fun j => j + 1 + i) = (l.filter fun j => fs[j]?.any fun f => isClient f.kind).map
            (· + (i + 1)) := by
      intro l
      exact congrFun (congrArg List.map (funext fun j => by omega)) _
    rw [clientsFrom, List.length_cons, List.range_succ_eq_map, List.filter_cons, List.filter_map]
    by_cases hf : isClient f.kind
    · simp only [List.getElem?_cons_zero, Option.any_some, hf, if_true, List.map_cons, List.map_map,
        Nat.zero_add]
      exact congrArg _ ((ih (i + 1)).trans (htail _).symm)
    · simp only [List.getElem?_cons_zero, Option.any_some, hf, Bool.false_eq_true, if_false,
        List.map_map]
      exact (ih (i + 1)).trans (htail _).symm

def Singletons (w : Wm) : Prop := w.kinds.Pairwise fun a b => a = b → isClient a = true

theorem Singletons.perm {w' : Wm} (hw : w.Singletons) (h : w'.kinds.Perm w.kinds) :
    w'.Singletons := by
  refine (h.pairwise_iff ?_).mpr hw
  intro a b hab heq
  rw [heq]
  exact hab heq.symm

theorem Singletons.closeFrame (hw : w.Singletons) (i : ℕ) : (w.closeFrame i).Singletons := by
  rw [Singletons, kinds_closeFrame]
  exact hw.sublist (List.eraseIdx_sublist _ i)

theorem Singletons.append {w' : Wm} {kind : FrameKind} (hw : w.Singletons)
    (h : w'.kinds = w.kinds ++ [kind]) (hnew : kind ∈ w.kinds → isClient kind = true) :
    w'.Singletons := by
  rw [Singletons, h, List.pairwise_append]
  refine ⟨hw, List.pairwise_singleton _ _, ?_⟩
  intro a ha b hb heq
  rw [List.mem_singleton] at hb
  rw [heq, hb] at ha ⊢
  exact hnew ha

theorem position_none {kind : FrameKind} (h : w.position kind = none) : kind ∉ w.kinds := by
  intro hmem
  obtain ⟨f, hf, hkind⟩ := List.mem_map.mp hmem
  exact of_decide_eq_false (List.findIdx?_eq_none_iff.mp h f hf) hkind

theorem Singletons.ensureFrame {scr : Screen} {mode : PanelMode} {kind : FrameKind} {w' : Wm}
    {i : ℕ} (hw : w.Singletons) (h : ensureFrame scr mode w kind = some (w', i)) :
    w'.Singletons := by
  rw [Wm.ensureFrame] at h
  cases hpos : w.position kind with
  | some j =>
    rw [hpos] at h
    cases h
    exact hw
  | none =>
    rw [hpos] at h
    obtain ⟨p, -, heq⟩ := Option.map_eq_some_iff.mp h
    cases heq
    have hnew : kind ∈ w.kinds → isClient kind = true :=
      fun hmem => absurd hmem (position_none hpos)
    exact hw.append (List.map_append ..) hnew

theorem Singletons.position (hw : w.Singletons) {i : ℕ} {f : Frame} (hf : w.frames[i]? = some f)
    (hkind : isClient f.kind = false) : w.position f.kind = some i := by
  obtain ⟨hi, hget⟩ := List.getElem?_eq_some_iff.mp hf
  rw [Wm.position, List.findIdx?_eq_some_iff_getElem]
  refine ⟨hi, by simp [hget], fun j hj => ?_⟩
  have hjlt : j < w.frames.length := by omega
  rw [Bool.not_eq_true, decide_eq_false_iff_not]
  intro heq
  have hpair :=
    List.pairwise_iff_getElem.mp hw j i (by simpa [kinds] using hjlt) (by simpa [kinds] using hi) hj
  simp only [kinds, List.getElem_map, hget] at hpair
  rw [heq, hkind] at hpair
  exact Bool.false_ne_true (hpair rfl)

theorem mem_clientsOf {i : ℕ} :
    i ∈ clientsFrom 0 w.frames ↔ ∃ f, w.frames[i]? = some f ∧ isClient f.kind = true := by
  rw [clientsFrom_eq]
  simp only [List.mem_map, List.mem_filter, List.mem_range, Option.any_eq_true, Nat.add_zero]
  constructor
  · rintro ⟨j, ⟨-, f, hf, hkind⟩, rfl⟩
    exact ⟨f, hf, hkind⟩
  · rintro ⟨f, hf, hkind⟩
    exact ⟨i, ⟨(List.getElem?_eq_some_iff.mp hf).1, f, hf, hkind⟩, rfl⟩

theorem taskFrames_eq (w : Wm) : w.taskFrames =
    (w.position .files).toList ++ (w.position .settings).toList ++ (w.position .vt).toList ++
      clientsFrom 0 w.frames := by
  rw [clientsFrom_eq, taskFrames]
  exact congrArg _ (List.map_id _).symm

theorem mem_taskFrames (hw : w.Singletons) {i : ℕ} : i ∈ w.taskFrames ↔ i < w.frames.length := by
  simp only [taskFrames_eq, List.mem_append, Option.mem_toList, mem_clientsOf]
  constructor
  · rintro (((h | h) | h) | ⟨f, hf, -⟩)
    · exact (List.getElem?_eq_some_iff.mp (position_kind h).choose_spec.1).1
    · exact (List.getElem?_eq_some_iff.mp (position_kind h).choose_spec.1).1
    · exact (List.getElem?_eq_some_iff.mp (position_kind h).choose_spec.1).1
    · exact (List.getElem?_eq_some_iff.mp hf).1
  · intro hi
    have hf := List.getElem?_eq_getElem hi
    have hpos := hw.position hf
    cases hkind : w.frames[i].kind with
    | files => exact .inl (.inl (.inl (by rw [← hkind]; exact hpos (by rw [hkind]; rfl))))
    | settings => exact .inl (.inl (.inr (by rw [← hkind]; exact hpos (by rw [hkind]; rfl))))
    | vt => exact .inl (.inr (by rw [← hkind]; exact hpos (by rw [hkind]; rfl)))
    | client id => exact .inr ⟨_, hf, by rw [hkind]; rfl⟩

theorem nodup_taskFrames (w : Wm) : w.taskFrames.Nodup := by
  have hone : ∀ o : Option ℕ, o.toList.Nodup := by
    intro o
    cases o with
    | none => exact List.nodup_nil
    | some i => exact List.nodup_singleton i
  have hapart : ∀ {i : ℕ} {kind kind' : FrameKind}, w.position kind = some i →
      w.position kind' = some i → kind = kind' := by
    intro i kind kind' h h'
    obtain ⟨f, hf, hkind⟩ := position_kind h
    obtain ⟨f', hf', hkind'⟩ := position_kind h'
    rw [hf] at hf'
    cases hf'
    exact hkind.symm.trans hkind'
  have hclients : ∀ {i : ℕ} {kind : FrameKind}, isClient kind = false → w.position kind = some i →
      i ∉ clientsFrom 0 w.frames := by
    intro i kind hno h hmem
    obtain ⟨f, hf, hkind⟩ := position_kind h
    obtain ⟨f', hf', hclient⟩ := mem_clientsOf.mp hmem
    rw [hf] at hf'
    cases hf'
    rw [hkind, hno] at hclient
    cases hclient
  have hfrom : (clientsFrom 0 w.frames).Nodup := by
    rw [clientsFrom_eq]
    exact (List.nodup_range.filter _).map fun a b h => h
  rw [taskFrames_eq, List.nodup_append, List.nodup_append, List.nodup_append]
  simp only [List.mem_append, Option.mem_toList]
  refine ⟨⟨⟨hone _, hone _, ?_⟩, hone _, ?_⟩, hfrom, ?_⟩
  · rintro i hi j hj rfl
    exact nomatch hapart hi hj
  · rintro i (hi | hi) j hj rfl
    · exact nomatch hapart hi hj
    · exact nomatch hapart hi hj
  · rintro i ((hi | hi) | hi) j hj rfl
    · exact hclients rfl hi hj
    · exact hclients rfl hi hj
    · exact hclients rfl hi hj

end Wm

namespace State

variable {φ η : Type}

theorem countClients_eq (k i n : ℕ) (fs : List Frame) (h : n ≤ k) :
    countClients k n i fs = (Wm.clientsFrom i fs)[k - n]? := by
  induction fs generalizing n i with
  | nil => rfl
  | cons f fs ih =>
    cases hkind : f.kind with
    | client id =>
      have hclient : isClient f.kind = true := by rw [hkind, isClient]
      rw [countClients, Wm.clientsFrom, if_pos hclient, hkind]
      dsimp only
      split
      · next heq =>
        rw [heq, Nat.sub_self]
        rfl
      · next hne =>
        have hsub : k - n = (k - (n + 1)) + 1 := by omega
        rw [ih (i + 1) (n + 1) (by omega), hsub, List.getElem?_cons_succ]
    | vt | files | settings =>
      rw [countClients, Wm.clientsFrom, hkind]
      exact ih (i + 1) n h

theorem countKind_eq (st : State φ) (k : ℕ) (kind : FrameKind) :
    st.countKind k kind = visit k (st.wm.position kind).toList := by
  funext n
  rw [countKind]
  cases st.wm.position kind <;> rfl

theorem taskFrame_eq (st : State φ) (k : ℕ) : st.taskFrame k = st.wm.taskFrame k := by
  have hcount : (do
      let n ← st.countKind k .files 0
      let n ← st.countKind k .settings n
      st.countKind k .vt n) =
      visit k ((st.wm.position .files).toList ++ (st.wm.position .settings).toList ++
        (st.wm.position .vt).toList) 0 := by
    rw [visit_append, visit_append, ← countKind_eq, ← countKind_eq, ← countKind_eq]
    exact (bind_assoc (st.countKind k .files 0) (st.countKind k .settings)
      (st.countKind k .vt)).symm
  rw [taskFrame, hcount, Wm.taskFrame, Wm.taskFrames_eq]
  generalize (st.wm.position .files).toList ++ (st.wm.position .settings).toList ++
      (st.wm.position .vt).toList = singles
  rw [visit_eq (Nat.zero_le k), Nat.sub_zero, Nat.zero_add, List.getElem?_append]
  cases hk : singles[k]? with
  | some i => rw [if_pos (List.getElem?_eq_some_iff.mp hk).1]
  | none =>
    have hle := List.getElem?_eq_none_iff.mp hk
    rw [if_neg (by omega)]
    exact countClients_eq k 0 singles.length st.wm.frames hle

end State

section Entries

def FrameKind.taskTitle : FrameKind → String
  | .files => "Files"
  | .settings => "Settings"
  | .vt => "Terminal"
  | .client _ => "Application"

def FrameKind.taskIcon : FrameKind → Icon
  | .files => .folder
  | .settings | .client _ => .app
  | .vt => .terminal

/-- What the task bar has to say of a frame. -/
def Frame.taskInfo (f : Frame) (focused : Bool) : TaskInfo :=
  ⟨f.kind.taskTitle, focused, f.minimized, f.kind.taskIcon⟩

def Wm.taskEntry (w : Wm) (i : ℕ) : Option TaskInfo :=
  w.frames[i]?.map fun f => f.taskInfo (w.visibleTop = some i)

namespace State

variable {φ η : Type}

theorem kindInfo_entry (st : State φ) (kind : FrameKind) :
    (st.kindInfo kind kind.taskTitle kind.taskIcon).map some = (st.wm.position kind).toList.map
      st.wm.taskEntry := by
  rw [kindInfo]
  cases hpos : st.wm.position kind with
  | none => rfl
  | some i =>
    obtain ⟨f, hf, hkind⟩ := Wm.position_kind hpos
    simp [Wm.taskEntry, Frame.taskInfo, hf, hkind]

theorem clientInfos_entry (top : Option ℕ) (fs : List Frame) (i : ℕ) :
    (clientInfos top i fs).map some =
      (Wm.clientsFrom i fs).map fun j => fs[j - i]?.map fun f => f.taskInfo (top = some j) := by
  induction fs generalizing i with
  | nil => rfl
  | cons f fs ih =>
    have htail :
        (Wm.clientsFrom (i + 1) fs).map (fun j => fs[j - (i + 1)]?.map fun f =>
          f.taskInfo (top = some j)) = (Wm.clientsFrom (i + 1) fs).map fun j =>
            (f :: fs)[j - i]?.map fun f => f.taskInfo (top = some j) := by
      refine List.map_congr_left fun j hj => ?_
      rw [Wm.clientsFrom_eq] at hj
      obtain ⟨d, -, rfl⟩ := List.mem_map.mp hj
      rw [Nat.add_sub_cancel, Nat.add_comm i 1, ← Nat.add_assoc, Nat.add_sub_cancel,
        List.getElem?_cons_succ]
    rw [clientInfos, Wm.clientsFrom]
    cases hkind : f.kind with
    | client id =>
      have hinfo :
          f.taskInfo (top = some i) = ⟨"Application", top = some i, f.minimized, .app⟩ := by
        rw [Frame.taskInfo, hkind, FrameKind.taskTitle, FrameKind.taskIcon]
      rw [isClient, if_pos rfl, List.map_cons, List.map_cons, ih, htail, Nat.sub_self,
        List.getElem?_cons_zero, Option.map_some, hinfo]
    | vt | files | settings =>
      exact (ih (i + 1)).trans htail

theorem taskInfos_entry (st : State φ) :
    st.taskInfos.map some = st.wm.taskFrames.map st.wm.taskEntry := by
  have hclients := clientInfos_entry st.wm.visibleTop st.wm.frames 0
  have hfiles : (st.kindInfo .files "Files" .folder).map some = _ := st.kindInfo_entry .files
  have hsettings : (st.kindInfo .settings "Settings" .app).map some = _ :=
    st.kindInfo_entry .settings
  have hvt : (st.kindInfo .vt "Terminal" .terminal).map some = _ := st.kindInfo_entry .vt
  rw [taskInfos, Wm.taskFrames_eq]
  simp only [List.map_append, hfiles, hsettings, hvt, hclients]
  rfl

end State

end Entries

theorem WmOp.apply_singletons {scr : Screen} (op : WmOp) (d : Desk) (h : d.wm.Singletons) :
    (op.apply scr d).wm.Singletons := by
  cases op with
  | setFocus g => exact h
  | focusFrame i => exact h.perm (.of_eq (Wm.kinds_focusFrame _ _))
  | raise i => exact h.perm (Wm.kinds_raise _ _)
  | showFrame i => exact h.perm (Wm.kinds_showFrame _ _)
  | showKind kind =>
    rw [apply]
    rcases hens : Wm.ensureFrame scr d.mode d.wm kind with _ | ⟨w, i⟩
    · exact h
    · exact (h.ensureFrame hens).perm (Wm.kinds_showFrame w i)
  | minimize i => exact h.perm (.of_eq (Wm.kinds_minimizeFrame _ _))
  | restore i => exact h.perm (Wm.kinds_restoreMin _ _)
  | close i => exact h.closeFrame i
  | clientClose id =>
    rw [apply]
    split
    · exact h
    · exact h.closeFrame _
  | toggleMax i => exact h.perm (Wm.kinds_toggleMax _ _ _ _)
  | setMode m =>
    rw [apply]
    split
    · exact h
    · exact h.perm (.of_eq (Wm.kinds_same (Wm.reflowMaximized_same _ _ _)))
  | drag g => exact h
  | follow cx cy => exact h.perm (.of_eq (Wm.kinds_same (Wm.applyDrag_same _ _ _ _ _)))

namespace State

variable {φ η : Type} {fat : FatIo φ η} {scr : Screen}

theorem init_singletons (mode : PanelMode) (wall : Option Bytes) (m : Mount φ) :
    (init fat mode wall m).wm.Singletons :=
  List.Pairwise.nil

theorem step_singletons {st st' : State φ} {e : Event φ} (hst : st.wm.Singletons)
    (h : step fat scr st e = some st') : st'.wm.Singletons := by
  by_cases he : e.creates = true
  · cases e with
    | clientCreate id cw ch ox oy =>
      cases h
      have hnew : .client id ∈ st.wm.kinds → isClient (.client id) = true := fun _ => rfl
      exact hst.append (List.map_append ..) hnew
    | irq | key | mouse | clientClose | volume => cases he
  · have hrun :=
      WmOp.run_invariant (I := fun d => d.wm.Singletons) scr WmOp.apply_singletons
        (st.ops scr fat e) (d := st.desk) hst
    rw [← step_ops (Bool.eq_false_iff.mpr he) h] at hrun
    exact hrun

/-- Both traversals of the task bar give each frame one place, and the entry there is its own. -/
theorem task_bar_enumerates {mode : PanelMode} {wall : Option Bytes} {m : Mount φ} {st : State φ}
    (h : Reachable (step fat scr) (init fat mode wall m) st) :
    (∀ k, (st.taskFrame k).isSome ↔ k < st.taskInfos.length) ∧
      (∀ k i, st.taskFrame k = some i → i < st.wm.frames.length) ∧
      (∀ i < st.wm.frames.length, ∃! k, st.taskFrame k = some i) ∧
      ∀ k i f, st.taskFrame k = some i → st.wm.frames[i]? = some f →
        st.taskInfos[k]? = some (f.taskInfo (st.wm.visibleTop = some i)) := by
  have hw : st.wm.Singletons :=
    h.invariant (I := fun st => st.wm.Singletons) (init_singletons mode wall m) fun _ _ _ hI hs =>
      step_singletons hI hs
  have hlen : st.taskInfos.length = st.wm.taskFrames.length := by
    have hmap := congrArg List.length st.taskInfos_entry
    rwa [List.length_map, List.length_map] at hmap
  simp only [taskFrame_eq, Wm.taskFrame]
  refine ⟨fun k => ?_, fun k i hk => ?_, fun i hi => ?_, fun k i f hk hf => ?_⟩
  · rw [hlen, isSome_getElem?]
  · exact (Wm.mem_taskFrames hw).mp (List.mem_of_getElem? hk)
  · obtain ⟨k, hk⟩ := List.mem_iff_getElem?.mp ((Wm.mem_taskFrames hw).mpr hi)
    refine ⟨k, hk, fun j hj => ?_⟩
    exact (List.getElem?_inj (List.getElem?_eq_some_iff.mp hj).1 st.wm.nodup_taskFrames).mp
      (hj.trans hk.symm)
  · have hentry := congrArg (fun l => l[k]?) st.taskInfos_entry
    simp only [List.getElem?_map, hk, Option.map_some, Wm.taskEntry, hf] at hentry
    obtain ⟨info, hinfo, heq⟩ := Option.map_eq_some_iff.mp hentry
    rw [hinfo, heq]

theorem task_bar_of_both :
    ∃ st, Reachable (step listFat screen) (init listFat .float none oneFile) st ∧
    st.wm.frames.length = 2 ∧ ∀ k, (st.taskFrame k).isSome ↔ k < st.taskInfos.length := by
  obtain ⟨r, hr, hp⟩ :=
    exists_path_of_replay (step listFat screen) (init listFat .float none oneFile) openBoth
    (fun r => decide (r.2.wm.frames.length = 2)) (by decide)
  exact ⟨r.2, ⟨r.1, hr⟩, of_decide_eq_true hp, (task_bar_enumerates ⟨r.1, hr⟩).1⟩

end State

end CoeleoOs.Ui
