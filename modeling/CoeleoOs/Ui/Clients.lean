import CoeleoOs.Task.Stretch
import CoeleoOs.Task.System
import CoeleoOs.Ui.FocusTop
import CoeleoOs.Ui.Ops
import CoeleoOs.Ui.Win
import Mathlib.Data.Multiset.AddSub

/-!
# Client frames and window slots

The surfaces of `win.rs` next to the compositor's frames. A window is made by a system call,
which fills a slot and then pushes a frame, and goes by the button of its frame, by the task
bar or with its process.
-/

namespace CoeleoOs.Ui
open CoeleoOs.Fs CoeleoOs.Lib CoeleoOs.Lib.Machine CoeleoOs.Task

def clientId : FrameKind → Option ℕ
  | .client id => some id
  | _ => none

theorem clientId_eq_some {kind : FrameKind} {id : ℕ} :
    clientId kind = some id ↔ kind = .client id := by
  cases kind <;> simp [clientId]

namespace Wm

variable {w : Wm} {i : ℕ} {f : Frame}

def kinds (w : Wm) : List FrameKind := w.frames.map Frame.kind

def clients (w : Wm) : Multiset ℕ := ↑(w.kinds.filterMap clientId)

theorem clients_perm {w' : Wm} (h : w'.kinds.Perm w.kinds) : w'.clients = w.clients :=
  Multiset.coe_eq_coe.mpr (h.filterMap _)

theorem kinds_modify {g : Frame → Frame} (hg : ∀ f, (g f).kind = f.kind) (w : Wm) (i : ℕ) :
    (w.modify i g).kinds = w.kinds := by
  refine List.ext_getElem? fun j => ?_
  rw [kinds, kinds, modify, List.getElem?_map, List.getElem?_map, List.getElem?_modify]
  cases w.frames[j]? with
  | none => rfl
  | some f =>
    by_cases hij : i = j
    · simp [hij, hg]
    · simp [hij]

theorem kinds_focusFrame (w : Wm) (i : ℕ) : (w.focusFrame i).kinds = w.kinds := by
  rw [focusFrame]
  split <;> rfl

theorem kinds_retargetFocus (w : Wm) : w.retargetFocus.kinds = w.kinds := by
  rw [retargetFocus]
  split
  · rfl
  · exact w.kinds_focusFrame _

theorem kinds_dropDrag (w : Wm) (kind : FrameKind) : (w.dropDrag kind).kinds = w.kinds := by
  rw [dropDrag]
  split <;> rfl

theorem kinds_raise (w : Wm) (i : ℕ) : (w.raise i).kinds.Perm w.kinds :=
  (ZOrder.raise_perm w.frames i).map Frame.kind

theorem kinds_minimizeFrame (w : Wm) (i : ℕ) : (w.minimizeFrame i).kinds = w.kinds := by
  rw [minimizeFrame]
  split
  · rfl
  · split
    · rfl
    · rw [kinds_retargetFocus, kinds_dropDrag]
      refine kinds_modify ?_ w i
      exact fun _ => rfl

theorem kinds_restoreMin (w : Wm) (i : ℕ) : (w.restoreMin i).kinds.Perm w.kinds := by
  rw [restoreMin, kinds_focusFrame]
  refine (kinds_raise _ i).trans ?_
  rw [unminimize, kinds_modify]
  exact fun _ => rfl

theorem kinds_showFrame (w : Wm) (i : ℕ) : (w.showFrame i).kinds.Perm w.kinds := by
  rw [showFrame, kinds_focusFrame]
  refine (kinds_raise _ i).trans ?_
  rw [unminimize, kinds_modify]
  exact fun _ => rfl

theorem kinds_toggleMax (scr : Screen) (work : ℕ) (w : Wm) (i : ℕ) :
    (toggleMax scr work w i).kinds.Perm w.kinds := by
  refine (kinds_raise _ i).trans ?_
  rw [kinds_modify fun f => (maxFrame_kind scr work f).1]

theorem kinds_closeFrame (w : Wm) (i : ℕ) : (w.closeFrame i).kinds = w.kinds.eraseIdx i := by
  rw [closeFrame]
  cases hi : w.frames[i]? with
  | none =>
    rw [List.eraseIdx_of_length_le]
    rw [kinds, List.length_map]
    exact List.getElem?_eq_none_iff.mp hi
  | some f =>
    dsimp only
    rw [kinds_retargetFocus]
    have hframes : (w.dropDrag f.kind).frames = w.frames := by
      rw [dropDrag]
      split <;> rfl
    change ((w.dropDrag f.kind).frames.eraseIdx i).map Frame.kind =
        (w.frames.map Frame.kind).eraseIdx i
    rw [hframes, List.eraseIdx_map]

theorem kinds_same {w' : Wm} (h : SameStack w w') : w'.kinds = w.kinds := by
  have hkinds : ∀ v : Wm, v.kinds = v.tags.map Prod.fst := fun v => by
    rw [tags, List.map_map]
    rfl
  rw [hkinds, hkinds, h.tags]

theorem clients_closeFrame (hi : w.frames[i]? = some f) :
    (w.closeFrame i).clients = (clientId f.kind).elim w.clients fun id => w.clients.erase id := by
  have hkind : w.kinds[i]? = some f.kind := by rw [kinds, List.getElem?_map, hi, Option.map_some]
  obtain ⟨hlt, hget⟩ := List.getElem?_eq_some_iff.mp hkind
  have hperm : (f.kind :: w.kinds.eraseIdx i).Perm w.kinds := by
    rw [← hget]
    exact List.getElem_cons_eraseIdx_perm hlt
  have hclients : w.clients = ((f.kind :: w.kinds.eraseIdx i).filterMap clientId : Multiset ℕ) :=
    Multiset.coe_eq_coe.mpr (hperm.symm.filterMap _)
  rw [clients, kinds_closeFrame, hclients]
  cases hid : clientId f.kind with
  | none => rw [List.filterMap_cons_none hid, Option.elim_none]
  | some id =>
    rw [List.filterMap_cons_some hid, Option.elim_some, ← Multiset.cons_coe,
      Multiset.erase_cons_head]

theorem position_kind {kind : FrameKind} (h : w.position kind = some i) :
    ∃ f, w.frames[i]? = some f ∧ f.kind = kind := by
  obtain ⟨hlt, hkind, -⟩ := List.findIdx?_eq_some_iff_getElem.mp h
  exact ⟨_, List.getElem?_eq_getElem hlt, of_decide_eq_true hkind⟩

theorem mem_clients {id : ℕ} : id ∈ w.clients ↔ ∃ f ∈ w.frames, f.kind = .client id := by
  simp only [clients, kinds, Multiset.mem_coe, List.mem_filterMap, List.mem_map, clientId_eq_some]
  constructor
  · rintro ⟨kind, ⟨f, hf, rfl⟩, hkind⟩
    exact ⟨f, hf, hkind⟩
  · rintro ⟨f, hf, hkind⟩
    exact ⟨_, ⟨f, hf, rfl⟩, hkind⟩

theorem position_client_none {id : ℕ} (h : w.position (.client id) = none) : id ∉ w.clients := by
  rw [mem_clients]
  rintro ⟨f, hf, hkind⟩
  have hno := List.findIdx?_eq_none_iff.mp h f hf
  exact of_decide_eq_false hno hkind

theorem clients_ensureFrame {scr : Screen} {mode : PanelMode} {kind : FrameKind} {w' : Wm}
    (h : ensureFrame scr mode w kind = some (w', i)) : w'.clients = w.clients := by
  rw [ensureFrame] at h
  cases hpos : w.position kind with
  | some j =>
    rw [hpos] at h
    cases h
    rfl
  | none =>
    rw [hpos] at h
    obtain ⟨p, hp, heq⟩ := Option.map_eq_some_iff.mp h
    cases heq
    have hbuiltin : clientId kind = none := by
      cases kind <;> first | rfl | cases hp
    change (((w.frames ++ [_]).map Frame.kind).filterMap clientId : Multiset ℕ) = _
    rw [List.map_append, List.filterMap_append, List.map_singleton]
    change ((_ ++ [kind].filterMap clientId : List ℕ) : Multiset ℕ) = _
    rw [List.filterMap_cons_none hbuiltin, List.filterMap_nil, List.append_nil]
    rfl

end Wm

namespace WmOp

def dropped (d : Desk) : WmOp → Option ℕ
  | close i => d.wm.frames[i]?.bind fun f => clientId f.kind
  | clientClose id => some id
  | _ => none

variable {scr : Screen}

theorem clients_apply (op : WmOp) (d : Desk) :
    (op.apply scr d).wm.clients = (op.dropped d).elim d.wm.clients fun id =>
      d.wm.clients.erase id := by
  cases op with
  | setFocus g => rfl
  | focusFrame i => exact Wm.clients_perm (.of_eq (Wm.kinds_focusFrame _ _))
  | raise i => exact Wm.clients_perm (Wm.kinds_raise _ _)
  | showFrame i => exact Wm.clients_perm (Wm.kinds_showFrame _ _)
  | showKind kind =>
    rw [apply]
    rcases h : Wm.ensureFrame scr d.mode d.wm kind with _ | ⟨w, i⟩
    · rfl
    · exact (Wm.clients_perm (Wm.kinds_showFrame w i)).trans (Wm.clients_ensureFrame h)
  | minimize i => exact Wm.clients_perm (.of_eq (Wm.kinds_minimizeFrame _ _))
  | restore i => exact Wm.clients_perm (Wm.kinds_restoreMin _ _)
  | close i =>
    rw [apply, dropped]
    cases hi : d.wm.frames[i]? with
    | none =>
      rw [Wm.closeFrame, hi]
      rfl
    | some f => exact Wm.clients_closeFrame hi
  | clientClose id =>
    rw [apply, dropped, Option.elim_some]
    cases hpos : d.wm.position (.client id) with
    | none => exact (Multiset.erase_of_notMem (Wm.position_client_none hpos)).symm
    | some i =>
      obtain ⟨f, hf, hkind⟩ := Wm.position_kind hpos
      have hclose := Wm.clients_closeFrame hf
      rw [hkind] at hclose
      exact hclose
  | toggleMax i => exact Wm.clients_perm (Wm.kinds_toggleMax _ _ _ _)
  | setMode m =>
    rw [apply]
    split
    · rfl
    · exact Wm.clients_perm (.of_eq (Wm.kinds_same (Wm.reflowMaximized_same _ _ _)))
  | drag g => rfl
  | follow cx cy => exact Wm.clients_perm (.of_eq (Wm.kinds_same (Wm.applyDrag_same _ _ _ _ _)))

def drops (scr : Screen) : List WmOp → Desk → List ℕ
  | [], _ => []
  | op :: ops, d => (op.dropped d).toList ++ drops scr ops (op.apply scr d)

theorem clients_run (ops : List WmOp) (d : Desk) :
    (run scr ops d).wm.clients = (drops scr ops d).foldl Multiset.erase d.wm.clients := by
  induction ops generalizing d with
  | nil => rfl
  | cons op ops ih =>
    rw [run_cons, ih, drops, List.foldl_append, clients_apply]
    cases op.dropped d <;> rfl

end WmOp

section Slots

def Win.dropId (w : Win) (id : ℕ) : Win :=
  { w with slots := fun i => (w.slots i).filter fun s => s.id ≠ id }

def Win.Numbered (w : Win) : Prop := ∀ i s, w.slots i = some s → s.id = i.val + 1

def Win.ids (w : Win) : Multiset ℕ :=
  ↑((List.finRange maxSurfaces).filterMap fun i => (w.slots i).map Surface.id)

variable {w : Win}

theorem Win.mem_ids {id : ℕ} : id ∈ w.ids ↔ ∃ i s, w.slots i = some s ∧ s.id = id := by
  simp [ids]

theorem Win.Numbered.nodup (h : w.Numbered) : w.ids.Nodup := by
  refine List.Nodup.filterMap ?_ (List.nodup_finRange _)
  intro i j id hi hj
  obtain ⟨s, hs, rfl⟩ := Option.map_eq_some_iff.mp (Option.mem_def.mp hi)
  obtain ⟨t, ht, heq⟩ := Option.map_eq_some_iff.mp (Option.mem_def.mp hj)
  rw [h i s hs, h j t ht] at heq
  exact Fin.ext (by omega)

theorem Win.Numbered.dropId (h : w.Numbered) (id : ℕ) : (w.dropId id).Numbered := by
  intro i s hs
  exact h i s (Option.filter_eq_some_iff.mp hs).1

theorem Win.ids_dropId (h : w.Numbered) (id : ℕ) : (w.dropId id).ids = w.ids.erase id := by
  refine (Multiset.Nodup.ext (h.dropId id).nodup (h.nodup.erase id)).mpr fun a => ?_
  rw [h.nodup.mem_erase_iff, mem_ids, mem_ids]
  constructor
  · rintro ⟨i, s, hs, rfl⟩
    obtain ⟨hs, hne⟩ := Option.filter_eq_some_iff.mp hs
    exact ⟨of_decide_eq_true hne, i, s, hs, rfl⟩
  · rintro ⟨hne, i, s, hs, rfl⟩
    exact ⟨i, s, Option.filter_eq_some_iff.mpr ⟨hs, decide_eq_true hne⟩, rfl⟩

def Win.Created (w : Win) (wd ht buf v : ℕ) (w' : Win) : Prop :=
  v = err ∧ w' = w ∨
    ∃ slot p px, w.slots slot = none ∧ v = slot.val + 1 ∧
      w' = { w with
        slots :=
          Function.update w.slots slot (some ⟨slot.val + 1, p, wd % 2 ^ 32, ht % 2 ^ 32, px,
            buf, none⟩) }

theorem sysCreate_wp {ready : Bool} {pid : Option ℕ} {wd ht buf : ℕ} {e : Env} :
    (sysCreate ready pid wd ht buf).wp e w fun v w' => w.Created wd ht buf v w' ∧
      ∀ i s', w'.slots i = some s' → w.slots i = some s' ∨ pid = some s'.pid := by
  have hfail : (pure err : KernM Win ℕ).wp e w fun v w' => w.Created wd ht buf v w' ∧
      ∀ i s', w'.slots i = some s' → w.slots i = some s' ∨ pid = some s'.pid :=
    Eff.wp_pure.mpr ⟨.inl ⟨rfl, rfl⟩, fun _ _ hs => .inl hs⟩
  unfold sysCreate
  rw [Eff.wp_ite]
  split
  · exact hfail
  cases pid with
  | none => exact hfail
  | some p =>
    dsimp only
    rw [Eff.wp_ite]
    split
    · exact hfail
    apply sliceGuard_wp _ (hfail)
    rw [Eff.wp_bind, Eff.wp_ask, Eff.wp_ite]
    split
    · exact hfail
    rw [Eff.wp_bind]
    apply copyFromUser_wp
    intro pixels
    cases pixels with
    | none => exact hfail
    | some px =>
      dsimp only
      rw [Eff.wp_bind, Eff.wp_get]
      cases hpos : Table.position fun i => (w.slots i).isNone with
      | none => exact hfail
      | some slot =>
        dsimp only
        rw [Eff.wp_bind, Eff.wp_set, Eff.wp_pure]
        refine ⟨.inr ⟨slot, p, px, Option.isNone_iff_eq_none.mp (Table.position_some hpos), rfl,
          rfl⟩, fun i s' hs => ?_⟩
        dsimp only at hs
        by_cases hi : i = slot
        · rw [hi, Function.update_self] at hs
          exact .inr (by rw [← Option.some.inj hs])
        · rw [Function.update_of_ne hi] at hs
          exact .inl hs

def Win.reported (w : Win) (pid : Option ℕ) (id xy wh : ℕ) :
    Option (Fin maxSurfaces × Surface × (ℕ × ℕ × ℕ × ℕ)) := do
  let pid ← pid
  let slot ← Table.position fun i => (w.slots i).any fun s => s.id = id % 2 ^ 32 ∧ s.pid = pid
  let surf ← w.slots slot
  let rect ← clip surf.w surf.h (xy % 2 ^ 32) (xy / 2 ^ 32) (wh % 2 ^ 32) (wh / 2 ^ 32)
  return (slot, surf, rect)

def Win.Damaged (w : Win) (pid : Option ℕ) (id xy wh v : ℕ) (w' : Win) : Prop :=
  v = err ∧ w' = w ∨
    v = 0 ∧ ∃ slot surf px rect, w.reported pid id xy wh = some (slot, surf, rect) ∧
    w.slots slot = some surf ∧ w' = { w with slots := Function.update w.slots slot (some { surf with
      buf := px, dirty := some rect }) }

theorem sysDamage_wp {pid : Option ℕ} {id xy wh : ℕ} {e : Env} :
    (sysDamage pid id xy wh).wp e w (w.Damaged pid id xy wh) := by
  have hfail : (pure err : KernM Win ℕ).wp e w (w.Damaged pid id xy wh) :=
    Eff.wp_pure.mpr (.inl ⟨rfl, rfl⟩)
  unfold sysDamage
  cases pid with
  | none => exact hfail
  | some p =>
    dsimp only
    rw [Eff.wp_bind, Eff.wp_get]
    split
    · next slot hpos =>
      split
      · next surf hsurf =>
        split
        · next rect hrect =>
          apply sliceGuard_wp _ hfail
          rw [Eff.wp_bind]
          apply copyFromUser_wp
          intro pixels
          cases pixels with
          | none => exact hfail
          | some px =>
            dsimp only
            rw [Eff.wp_bind, Eff.wp_set, Eff.wp_pure]
            refine .inr ⟨rfl, slot, surf, px, rect, ?_, hsurf, rfl⟩
            simp only [Win.reported, Option.bind_eq_bind, Option.bind_some, hpos, hsurf, hrect]
            rfl
        · exact hfail
      · exact hfail
    · exact hfail

theorem Win.Damaged.tags {pid : Option ℕ} {id xy wh v : ℕ} {w' : Win}
    (h : w.Damaged pid id xy wh v w') (i : Fin maxSurfaces) :
    (w'.slots i).map (fun s => (s.id, s.pid)) = (w.slots i).map fun s => (s.id, s.pid) := by
  rcases h with ⟨-, rfl⟩ | ⟨-, slot, surf, px, rect, -, hsurf, rfl⟩
  · rfl
  · dsimp only
    by_cases hi : i = slot
    · rw [hi, Function.update_self, hsurf]
      rfl
    · rw [Function.update_of_ne hi]

theorem sysPollInput_wp {pid : Option ℕ} {buf len : ℕ} {e : Env} :
    (sysPollInput pid buf len).wp e w fun _ w' => w'.slots = w.slots := by
  unfold sysPollInput
  cases pid with
  | none => exact Eff.wp_pure.mpr rfl
  | some p =>
    dsimp only
    rw [Eff.wp_ite]
    split
    · exact Eff.wp_pure.mpr rfl
    refine sliceGuard_wp ?_ ?_
    · rw [Eff.wp_bind, Eff.wp_get, Eff.wp_bind, Eff.wp_set, Eff.wp_ite]
      split
      · exact Eff.wp_pure.mpr rfl
      · rw [Eff.wp_bind]
        apply copyToUser_wp
        exact Eff.wp_pure.mpr rfl
    · exact Eff.wp_pure.mpr rfl

end Slots

abbrev originX : ℕ := 16
abbrev originY : ℕ := 8

def place (scr : Screen) (mode : PanelMode) (w h : ℕ) : ℕ × ℕ :=
  clampXy scr (workH scr mode) w h originX originY

/-- The compositor and the window table. -/
structure ClientDesk (φ : Type) where
  comp : State φ
  win : Win

namespace ClientDesk

/-- What changes the frames or the slots, and the other calls of a client. `event` is for the
keys, the mouse and the volume; `queue` is what the compositor's pushes do to the input queue. -/
inductive Op (φ : Type) where
  | event (ev : Event φ)
  | create (pid : Option ℕ) (e : Env) (w h buf : ℕ)
  | damage (pid : Option ℕ) (e : Env) (id xy wh : ℕ)
  | pollInput (pid : Option ℕ) (e : Env) (buf len : ℕ)
  | dropPid (pid : ℕ)
  | queue (q : List Queued)

def ofClient {φ : Type} : Event φ → Bool
  | .clientCreate .. | .clientClose _ => true
  | _ => false

variable {φ η : Type} (fat : FatIo φ η) (scr : Screen)

def idsOf (w : Win) (pid : ℕ) : List ℕ :=
  (List.finRange maxSurfaces).filterMap fun i =>
    ((w.slots i).filter fun s => s.pid = pid).map Surface.id

def onEvent (ev : Event φ) (st : ClientDesk φ) : Option (ClientDesk φ) :=
  if ofClient ev then none
  else
    (st.comp.step fat scr ev).map fun comp =>
      ⟨comp, (WmOp.drops scr (st.comp.ops scr fat ev) st.comp.desk).foldl Win.dropId st.win⟩

def create (pid : Option ℕ) (e : Env) (w h buf : ℕ) (st : ClientDesk φ) : Option (ClientDesk φ) :=
  ((sysCreate true pid w h buf).out e st.win).map fun r =>
    if r.1 = err then ⟨st.comp, r.2⟩
    else
      let w := w % 2 ^ 32
      let h := h % 2 ^ 32
      let o := place scr st.comp.mode w h
      ⟨st.comp.onClientCreate r.1 w h o.1 o.2, r.2⟩

def dropPid (pid : ℕ) (st : ClientDesk φ) : ClientDesk φ :=
  ⟨(idsOf st.win pid).foldl (fun comp id => comp.onClientClose id) st.comp, st.win.dropPid pid⟩

def step (st : ClientDesk φ) : Op φ → Option (ClientDesk φ)
  | .event ev => st.onEvent fat scr ev
  | .create pid e w h buf => st.create scr pid e w h buf
  | .damage pid e id xy wh => ((sysDamage pid id xy wh).out e st.win).map fun r => ⟨st.comp, r.2⟩
  | .pollInput pid e buf len =>
    ((sysPollInput pid buf len).out e st.win).map fun r => ⟨st.comp, r.2⟩
  | .dropPid pid => some (st.dropPid pid)
  | .queue q => some ⟨st.comp, { st.win with q := q }⟩

def init (mode : PanelMode) (wall : Option Bytes) (m : Mount φ) : ClientDesk φ :=
  ⟨State.init fat mode wall m, Win.init⟩

/-- The client frames and the surfaces have the same ids, and no id occurs twice. -/
structure Matched (st : ClientDesk φ) : Prop where
  numbered : st.win.Numbered
  ids : st.comp.wm.clients = st.win.ids

section Erase

variable {α : Type*} [DecidableEq α] {m : Multiset α}

theorem nodup_foldl_erase (h : m.Nodup) (l : List α) : (l.foldl Multiset.erase m).Nodup := by
  induction l generalizing m with
  | nil => exact h
  | cons a l ih => exact ih (h.erase a)

theorem mem_foldl_erase (h : m.Nodup) (l : List α) {a : α} :
    a ∈ l.foldl Multiset.erase m ↔ a ∈ m ∧ a ∉ l := by
  induction l generalizing m with
  | nil => simp
  | cons b l ih =>
    rw [List.foldl_cons, ih (h.erase b), h.mem_erase_iff, List.mem_cons, not_or]
    constructor
    · rintro ⟨⟨hne, hm⟩, hl⟩
      exact ⟨hm, hne, hl⟩
    · rintro ⟨hm, hne, hl⟩
      exact ⟨⟨hne, hm⟩, hl⟩

end Erase

section Win

variable {w w' : Win}

theorem foldl_dropId (h : w.Numbered) (l : List ℕ) :
    (l.foldl Win.dropId w).Numbered ∧ (l.foldl Win.dropId w).ids =
      l.foldl Multiset.erase w.ids := by
  induction l generalizing w with
  | nil => exact ⟨h, rfl⟩
  | cons id l ih =>
    rw [List.foldl_cons, List.foldl_cons, ← Win.ids_dropId h]
    exact ih (h.dropId id)

theorem numbered_of_ids (hids : ∀ i, (w'.slots i).map Surface.id = (w.slots i).map Surface.id)
    (h : w.Numbered) : w'.Numbered := by
  intro i s hs
  have hid := hids i
  rw [hs] at hid
  obtain ⟨t, ht, heq⟩ := Option.map_eq_some_iff.mp hid.symm
  rw [← heq]
  exact h i t ht

theorem ids_congr (hids : ∀ i, (w'.slots i).map Surface.id = (w.slots i).map Surface.id) :
    w'.ids = w.ids := by
  rw [Win.ids, Win.ids, funext hids]

theorem numbered_dropPid (h : w.Numbered) (pid : ℕ) : (w.dropPid pid).Numbered := by
  intro i s hs
  exact h i s (Option.filter_eq_some_iff.mp hs).1

theorem mem_idsOf {pid id : ℕ} :
    id ∈ idsOf w pid ↔ ∃ i s, w.slots i = some s ∧ s.pid = pid ∧ s.id = id := by
  simp only [idsOf, List.mem_filterMap, List.mem_finRange, true_and, Option.map_eq_some_iff,
    Option.filter_eq_some_iff, decide_eq_true_eq]
  constructor
  · rintro ⟨i, s, ⟨hs, hpid⟩, hid⟩
    exact ⟨i, s, hs, hpid, hid⟩
  · rintro ⟨i, s, hs, hpid, hid⟩
    exact ⟨i, s, ⟨hs, hpid⟩, hid⟩

theorem ids_dropPid (h : w.Numbered) (pid : ℕ) :
    (w.dropPid pid).ids = (idsOf w pid).foldl Multiset.erase w.ids := by
  refine (Multiset.Nodup.ext (numbered_dropPid h pid).nodup (nodup_foldl_erase h.nodup _)).mpr
    fun a => ?_
  rw [mem_foldl_erase h.nodup, Win.mem_ids, Win.mem_ids, mem_idsOf]
  constructor
  · rintro ⟨i, s, hs, rfl⟩
    obtain ⟨hs, hne⟩ := Option.filter_eq_some_iff.mp hs
    refine ⟨⟨i, s, hs, rfl⟩, ?_⟩
    rintro ⟨j, t, ht, hpid, heq⟩
    rw [h i s hs, h j t ht] at heq
    obtain rfl : j = i := Fin.ext (by omega)
    obtain rfl := Option.some.inj (ht.symm.trans hs)
    exact of_decide_eq_true hne hpid
  · rintro ⟨⟨i, s, hs, rfl⟩, hno⟩
    refine ⟨i, s, Option.filter_eq_some_iff.mpr ⟨hs, decide_eq_true fun hpid => ?_⟩, rfl⟩
    exact hno ⟨i, s, hs, hpid, rfl⟩

theorem created_ids {wd ht buf v : ℕ} (h : w.Numbered) (hc : w.Created wd ht buf v w') :
    w'.Numbered ∧ w'.ids = if v = err then w.ids else v ::ₘ w.ids := by
  rcases hc with ⟨rfl, rfl⟩ | ⟨slot, p, px, hfree, rfl, rfl⟩
  · exact ⟨h, (if_pos rfl).symm⟩
  have hlt := slot.isLt
  have hne : slot.val + 1 ≠ err := by
    simp only [err, maxSurfaces] at *
    omega
  have hnew : slot.val + 1 ∉ w.ids := by
    rw [Win.mem_ids]
    rintro ⟨i, s, hs, hid⟩
    rw [h i s hs] at hid
    obtain rfl : i = slot := Fin.ext (by omega)
    rw [hfree] at hs
    cases hs
  have hnum :
      Win.Numbered { w with slots := Function.update w.slots slot (some ⟨slot.val + 1, p,
        wd % 2 ^ 32, ht % 2 ^ 32, px, buf, none⟩) } := by
    intro i s hs
    dsimp only at hs
    by_cases hi : i = slot
    · rw [hi, Function.update_self] at hs
      rw [← Option.some.inj hs, hi]
    · rw [Function.update_of_ne hi] at hs
      exact h i s hs
  refine ⟨hnum, ?_⟩
  rw [if_neg hne]
  refine (Multiset.Nodup.ext hnum.nodup (Multiset.nodup_cons.mpr ⟨hnew, h.nodup⟩)).mpr fun a => ?_
  rw [Multiset.mem_cons, Win.mem_ids, Win.mem_ids]
  dsimp only
  constructor
  · rintro ⟨i, s, hs, rfl⟩
    by_cases hi : i = slot
    · rw [hi, Function.update_self] at hs
      exact .inl (by rw [← Option.some.inj hs])
    · rw [Function.update_of_ne hi] at hs
      exact .inr ⟨i, s, hs, rfl⟩
  · rintro (rfl | ⟨i, s, hs, rfl⟩)
    · exact ⟨slot, _, Function.update_self .., rfl⟩
    · refine ⟨i, s, ?_, rfl⟩
      rw [Function.update_of_ne]
      · exact hs
      · rintro rfl
        rw [hfree] at hs
        cases hs

end Win

section Steps

variable {fat : FatIo φ η} {scr : Screen} {st st' : ClientDesk φ}

theorem clients_onClientClose (id : ℕ) (comp : State φ) :
    (comp.onClientClose id).wm.clients = comp.wm.clients.erase id := by
  let scr : Screen := ⟨0, 0, 0, none⟩
  have hdesk : (comp.onClientClose id).desk = WmOp.run scr [.clientClose id] comp.desk :=
    State.onClientClose_desk id comp
  have hclients : (WmOp.run scr [.clientClose id] comp.desk).wm.clients = _ :=
    WmOp.clients_run [.clientClose id] comp.desk
  rw [← hdesk] at hclients
  exact hclients

theorem clients_onClientCreate (id cw ch ox oy : ℕ) (comp : State φ) :
    (comp.onClientCreate id cw ch ox oy).wm.clients = id ::ₘ comp.wm.clients := by
  change (((comp.wm.frames ++ [frameNew (.client id) ox oy cw ch]).map Frame.kind).filterMap
      clientId : Multiset ℕ) = _
  rw [List.map_append, List.filterMap_append, ← Multiset.coe_add, add_comm]
  rfl

theorem step_matched (op : Op φ) (h : st.Matched) (hstep : st.step fat scr op = some st') :
    st'.Matched := by
  cases op with
  | event ev =>
    rw [step, onEvent] at hstep
    split at hstep
    · cases hstep
    next hev =>
    obtain ⟨comp, hcomp, rfl⟩ := Option.map_eq_some_iff.mp hstep
    have hcreates : ev.creates = false := by
      cases ev <;> first | rfl | exact absurd rfl hev
    have hdesk := State.step_ops hcreates hcomp
    have hclients : (WmOp.run scr (st.comp.ops scr fat ev) st.comp.desk).wm.clients = _ :=
      WmOp.clients_run _ st.comp.desk
    rw [← hdesk] at hclients
    obtain ⟨hnum, hids⟩ :=
      foldl_dropId h.numbered (WmOp.drops scr (st.comp.ops scr fat ev) st.comp.desk)
    refine ⟨hnum, ?_⟩
    rw [hids, ← h.ids]
    exact hclients
  | create pid e w ht buf =>
    obtain ⟨⟨v, g⟩, hout, rfl⟩ := Option.map_eq_some_iff.mp hstep
    obtain ⟨hnum, hids⟩ := created_ids h.numbered (sysCreate_wp v g hout).1
    dsimp only
    split
    · next hfail =>
      rw [if_pos hfail] at hids
      exact ⟨hnum, h.ids.trans hids.symm⟩
    · next hok =>
      rw [if_neg hok] at hids
      refine ⟨hnum, ?_⟩
      rw [hids, ← h.ids]
      exact clients_onClientCreate ..
  | damage pid e id xy wh =>
    obtain ⟨⟨v, g⟩, hout, rfl⟩ := Option.map_eq_some_iff.mp hstep
    have hkeep : ∀ i, (g.slots i).map Surface.id = (st.win.slots i).map Surface.id := fun i => by
      have htags := congrArg (Option.map Prod.fst) ((sysDamage_wp v g hout).tags i)
      rwa [Option.map_map, Option.map_map] at htags
    exact ⟨numbered_of_ids hkeep h.numbered, h.ids.trans (ids_congr hkeep).symm⟩
  | pollInput pid e buf len =>
    obtain ⟨⟨v, g⟩, hout, rfl⟩ := Option.map_eq_some_iff.mp hstep
    have hkeep : ∀ i, (g.slots i).map Surface.id = (st.win.slots i).map Surface.id :=
      fun i => by rw [sysPollInput_wp v g hout]
    exact ⟨numbered_of_ids hkeep h.numbered, h.ids.trans (ids_congr hkeep).symm⟩
  | dropPid pid =>
    cases hstep
    refine ⟨numbered_dropPid h.numbered pid, ?_⟩
    have hfold : ∀ (l : List ℕ) (comp : State φ),
        (l.foldl (fun comp id => comp.onClientClose id) comp).wm.clients =
          l.foldl Multiset.erase comp.wm.clients := by
      intro l
      induction l with
      | nil => exact fun _ => rfl
      | cons id l ih =>
        intro comp
        rw [List.foldl_cons, ih, clients_onClientClose]
        rfl
    change ((idsOf st.win pid).foldl _ st.comp).wm.clients = (st.win.dropPid pid).ids
    rw [hfold, h.ids, ids_dropPid h.numbered]
  | queue q =>
    cases hstep
    exact ⟨h.numbered, h.ids⟩

theorem init_matched (mode : PanelMode) (wall : Option Bytes) (m : Mount φ) :
    (init fat mode wall m).Matched := by
  refine ⟨fun i s h => ?_, rfl⟩
  cases h

theorem count_clients (w : Wm) (id : ℕ) :
    w.clients.count id = w.frames.countP fun f => f.kind = .client id := by
  rw [Wm.clients, Wm.kinds, Multiset.coe_count]
  induction w.frames with
  | nil => rfl
  | cons f fs ih =>
    rw [List.map_cons, List.countP_cons, ← ih]
    cases hid : clientId f.kind with
    | none =>
      have hne : f.kind ≠ .client id := fun h => by rw [h] at hid; cases hid
      rw [List.filterMap_cons_none hid, if_neg (by simpa using hne), Nat.add_zero]
    | some id' =>
      rw [List.filterMap_cons_some hid, List.count_cons, clientId_eq_some.mp hid]
      simp

end Steps

/-- Each surface has one frame, and each client's frame a surface. -/
theorem clients_match {fat : FatIo φ η} {scr : Screen} {mode : PanelMode} {wall : Option Bytes}
    {m : Mount φ} {st : ClientDesk φ} (h : Reachable (step fat scr) (init fat mode wall m) st) :
    (∀ i s, st.win.slots i = some s → (st.comp.wm.frames.countP fun f => f.kind = .client s.id) =
      1) ∧ ∀ f ∈ st.comp.wm.frames, ∀ id, f.kind = .client id → ∃ i s, st.win.slots i = some s ∧
      s.id = id := by
  have hm : st.Matched :=
    h.invariant (init_matched mode wall m) fun _ op _ hI hs => step_matched op hI hs
  constructor
  · intro i s hs
    have hmem : s.id ∈ st.comp.wm.clients := by
      rw [hm.ids]
      exact Win.mem_ids.mpr ⟨i, s, hs, rfl⟩
    have hnodup : st.comp.wm.clients.Nodup := by
      rw [hm.ids]
      exact hm.numbered.nodup
    rw [← count_clients]
    exact Multiset.count_eq_one_of_mem hnodup hmem
  · intro f hf id hkind
    have hmem : id ∈ st.comp.wm.clients := Wm.mem_clients.mpr ⟨f, hf, hkind⟩
    rw [hm.ids] at hmem
    exact Win.mem_ids.mp hmem

theorem second_window_matches : ∃ st, Reachable (step State.listFat State.screen)
    (init State.listFat .float none State.oneFile) st ∧ st.comp.wm.frames.length = 1 ∧
    ∀ i s, st.win.slots i = some s → (st.comp.wm.frames.countP fun f => f.kind = .client s.id) =
      1 := by
  obtain ⟨r, hr, hp⟩ :=
    exists_path_of_replay (step State.listFat State.screen)
      (init State.listFat .float none State.oneFile) [.create (some 7) (Sample.env []) 100 50 4096,
        .create (some 7) (Sample.env []) 100 50 4096, .event (.mouse (State.pressBy 55 (-40)))]
    (fun r => decide (r.2.comp.wm.frames.length = 1)) (by decide)
  exact ⟨r.2, ⟨r.1, hr⟩, of_decide_eq_true hp, (clients_match ⟨r.1, hr⟩).1⟩

end ClientDesk

end CoeleoOs.Ui
