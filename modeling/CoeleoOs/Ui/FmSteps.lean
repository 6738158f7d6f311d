import CoeleoOs.Lib.Machine
import CoeleoOs.Ui.FmNav

/-!
# What an event does to the file manager

An event leaves the panel in its folder, or leads it to another one, or moves it in the
history, or removes a file. Everything about whole runs is derived from these outcomes.
-/

namespace CoeleoOs.Ui.FmNav
open CoeleoOs.Fs CoeleoOs.Lib
open CoeleoOs.Task (Bytes DirEnt)

variable {φ η : Type} {fat : Fatfs φ η} {m : Mount φ} {font : Font} {s s' : FmNav} {path : Bytes}

/-- The highlighted row is one of the rows, or there are none and it is the first. -/
def SelValid (s : FmNav) : Prop := s.sel < s.visible.length ∨ s.visible.length = 0 ∧ s.sel = 0

/-- The highlight is on a row, and the search text is what the keyboard types. -/
structure Rows (s : FmNav) : Prop where
  sel : s.SelValid
  plain : ∀ c ∈ s.search, c < 0x80

/-- The panel is in the same folder, at the same place of its history. -/
structure Stays (s s' : FmNav) : Prop where
  cwd : s'.cwd = s.cwd
  ents : s'.ents = s.ents
  hist : s'.hist = s.hist
  histI : s'.histI = s.histI
  readIn : s'.readIn = s.readIn
  rows : s.Rows → s'.Rows

/-- Where the panel leads by itself. -/
inductive Led (s : FmNav) : Bytes → Prop
  | root : Led s [slash]
  | docs : Led s docsPath
  | parent : Led s (parent s.cwd)
  | child {ent : DirEnt} (h : ent ∈ s.ents) : Led s (join s.cwd ent.name)
  | crumb {seg : Bytes × Bytes} (h : seg ∈ pathSegments s.cwd) : Led s seg.2

/-- Enter in the path bar, with a path that can be listed. -/
def Enters (fat : Fatfs φ η) (m : Mount φ) (s : FmNav) (e : FmEvent) : Prop :=
  e = .enter ∧ s.nav = .path ∧ (m.list fat s.pathText).isOk = true

def pressed (font : Font) (s : FmNav) : FmEvent → FmNav
  | .click lx ly _ h now =>
    let row := min (s.scroll + (ly - listY0 font) / rowH font) (2 ^ 64 - 1)
    if ly < h ∧ sideW ≤ lx ∧ listY0 font ≤ ly ∧ s.mode = .list ∧ row < s.visible.length then
      { s with nav := .list, sel := row, lastSel := row, lastClickAt := now }
    else s
  | _ => s

inductive Outcome (fat : FatIo φ η) (font : Font) (m : Mount φ) (s : FmNav) (e : FmEvent) :
    FmNav → Prop
  | stay {s' : FmNav} (h : Stays s s') : Outcome fat font m s e s'
  | led {path : Bytes} (h : Led s path) :
    Outcome fat font m s e (go fat.toFatfs m path true (pressed font s e))
  | enter (h : Enters fat.toFatfs m s e) :
    Outcome fat font m s e (go fat.toFatfs m s.pathText true s)
  | back {s' : FmNav} (he : pressed font s e = s) (h : histBack fat.toFatfs m font s = some s') :
    Outcome fat font m s e s'
  | fwd {s' : FmNav} (he : pressed font s e = s) (h : histFwd fat.toFatfs m font s = some s') :
    Outcome fat font m s e s'
  | delete (h : e = .delete) : Outcome fat font m s e (deleteSel fat m font s).2.2

section Visible

theorem Stays.refl (s : FmNav) : Stays s s := ⟨rfl, rfl, rfl, rfl, rfl, fun h => h⟩

theorem Stays.trans {t : FmNav} (h : Stays s s') (h' : Stays s' t) : Stays s t :=
  ⟨h'.cwd.trans h.cwd, h'.ents.trans h.ents, h'.hist.trans h.hist, h'.histI.trans h.histI,
    h'.readIn.trans h.readIn, fun hs => h'.rows (h.rows hs)⟩

theorem selValid_first (h : s.sel = 0) : s.SelValid := by
  rw [SelValid, h]
  omega

theorem ensureVisible_eq (font : Font) (s : FmNav) : ∃ k, ensureVisible font s =
    { s with
      sel := if s.lastH = 0 then s.sel else min s.sel (s.visible.length - 1), scroll := k } := by
  unfold ensureVisible
  by_cases hdrawn : s.lastH = 0
  · rw [if_pos hdrawn, if_pos hdrawn]
    exact ⟨s.scroll, rfl⟩
  rw [if_neg hdrawn, if_neg hdrawn]
  by_cases hnone : s.visible.length = 0
  · rw [if_pos hnone]
    refine ⟨0, ?_⟩
    rw [hnone, Nat.min_eq_right (Nat.zero_le _)]
  rw [if_neg hnone]
  have hsel : (if s.visible.length ≤ s.sel then { s with sel := s.visible.length - 1 } else s) =
      { s with sel := min s.sel (s.visible.length - 1) } := by
    split
    · rw [Nat.min_eq_right (by omega)]
    · rw [Nat.min_eq_left (by omega)]
  dsimp only
  rw [hsel]
  split
  · exact ⟨_, rfl⟩
  · split <;> exact ⟨_, rfl⟩

theorem ensureVisible_sel (font : Font) (h : s.SelValid) : (ensureVisible font s).sel = s.sel := by
  obtain ⟨k, hk⟩ := ensureVisible_eq font s
  rw [hk]
  rw [SelValid] at h
  dsimp only
  split
  · rfl
  · omega

theorem ensureVisible_valid (font : Font) (h : s.lastH ≠ 0 ∨ s.SelValid) :
    (ensureVisible font s).SelValid := by
  obtain ⟨k, hk⟩ := ensureVisible_eq font s
  rw [hk]
  rw [SelValid] at h ⊢
  change (if s.lastH = 0 then s.sel else min s.sel (s.visible.length - 1)) < s.visible.length ∨
    s.visible.length = 0 ∧ (if s.lastH = 0 then s.sel else min s.sel (s.visible.length - 1)) = 0
  split <;> omega

theorem Stays.ensureVisible (h : Stays s s') : Stays s (ensureVisible font s') := by
  obtain ⟨k, hk⟩ := ensureVisible_eq font s'
  have hvalid : s.Rows → (FmNav.ensureVisible font s').SelValid :=
    fun hs => ensureVisible_valid font (.inr (h.rows hs).sel)
  rw [hk] at hvalid ⊢
  exact ⟨h.cwd, h.ents, h.hist, h.histI, h.readIn, fun hs => ⟨hvalid hs, (h.rows hs).plain⟩⟩

theorem render_stays (font : Font) (h : ℕ) (s : FmNav) : Stays s (render font h s) :=
  Stays.ensureVisible ⟨rfl, rfl, rfl, rfl, rfl, fun h => ⟨h.sel, h.plain⟩⟩

end Visible

section Moves

def visits (s : FmNav) : Visits HistEnt := ⟨s.hist, s.histI⟩

def place (s : FmNav) : HistEnt := ⟨s.cwd, s.sel, s.scroll⟩

theorem go_visits (fat : Fatfs φ η) (m : Mount φ) (path : Bytes) (s : FmNav) :
    (go fat m path true s).visits = (s.visits.remember s.place).visit ⟨path, 0, 0⟩ := by
  simp [visits, go, rememberView, reload, Visits.visit, Visits.remember, place]

def listing (fat : Fatfs φ η) (m : Mount φ) (path : Bytes) : List DirEnt :=
  match m.list fat path with
  | .ok ents => ents
  | .error _ => []

/-- What is read when the panel moves to an entry of its history. -/
structure Moved (fat : Fatfs φ η) (m : Mount φ) (s : FmNav) (e : HistEnt) (s' : FmNav) : Prop where
  cwd : s'.cwd = e.path
  ents : s'.ents = listing fat m e.path
  readIn : s'.readIn = m.workDir
  search : s'.search = s.search
  lastH : s'.lastH = s.lastH
  nav : s'.nav = s.nav
  sel : s'.sel = if s'.visible.length = 0 then 0 else min e.sel (s'.visible.length - 1)

theorem restoreView_moved (fat : Fatfs φ η) (m : Mount φ) (font : Font) {e : HistEnt}
    (he : s.hist[s.histI]? = some e) (hcwd : s.cwd = e.path)
    (hents : s.ents = listing fat m e.path) (hread : s.readIn = m.workDir) :
    Moved fat m s e (restoreView font s) ∧ (restoreView font s).hist = s.hist ∧
    (restoreView font s).histI = s.histI := by
  unfold restoreView
  rw [he]
  dsimp only
  generalize hn : s.visible.length = n
  generalize ht : { s with
    sel := if n = 0 then 0 else min e.sel (n - 1),
    scroll := min e.scroll (if n = 0 then 0 else min e.sel (n - 1)) } = t
  have hvis : t.visible = s.visible := by rw [← ht]; rfl
  have hsel : t.sel = if n = 0 then 0 else min e.sel (n - 1) := by rw [← ht]
  have hvalid : t.SelValid := by
    rw [SelValid, hvis, hsel, hn]
    split <;> omega
  have hkeep := ensureVisible_sel font hvalid
  obtain ⟨k, hk⟩ := ensureVisible_eq font t
  rw [hk] at hkeep ⊢
  have hn' : t.visible.length = n := by rw [hvis, hn]
  subst ht
  exact ⟨⟨hcwd, hents, hread, rfl, rfl, rfl, hkeep.trans (hn' ▸ hsel)⟩, rfl, rfl⟩

theorem moveTo_spec (fat : Fatfs φ η) (m : Mount φ) (font : Font) {i : ℕ} {e : HistEnt}
    (hi : i ≠ s.histI) (he : s.hist[i]? = some e) : s.rememberView.hist[i]? = some e ∧
      Moved fat m s e (restoreView font (reload fat m { s.rememberView with
        histI := i, cwd := e.path })) ∧
        (restoreView font (reload fat m { s.rememberView with histI := i, cwd := e.path })).visits =
        ⟨(s.visits.remember s.place).places, i⟩ := by
  have hother : s.rememberView.hist[i]? = some e := by
    rw [← he]
    exact Visits.remember_other (v := s.visits) hi
  obtain ⟨hmoved, hhist, hpos⟩ := restoreView_moved fat m font
    (s := reload fat m { s.rememberView with histI := i, cwd := e.path }) hother rfl rfl rfl
  refine ⟨hother, ⟨hmoved.cwd, hmoved.ents, hmoved.readIn, hmoved.search, hmoved.lastH, hmoved.nav,
    hmoved.sel⟩, ?_⟩
  rw [visits]
  exact congrArg₂ Visits.mk hhist hpos

theorem histBack_spec (fat : Fatfs φ η) (m : Mount φ) (font : Font) (hin : s.visits.Inside) :
    s.histI = 0 ∧ histBack fat m font s = some s ∨ 0 < s.histI ∧ ∃ e s', s.hist[s.histI - 1]? =
      some e ∧ histBack fat m font s = some s' ∧ Moved fat m s e s' ∧
      s'.visits = (s.visits.remember s.place).back := by
  unfold histBack
  by_cases hzero : s.histI = 0
  · exact .inl ⟨hzero, if_pos hzero⟩
  · rw [if_neg hzero]
    have he := List.getElem?_eq_getElem (Nat.lt_of_le_of_lt (Nat.sub_le s.histI 1) hin)
    obtain ⟨hother, hmoved, hv⟩ := moveTo_spec fat m font (i := s.histI - 1) (by omega) he
    exact .inr ⟨Nat.pos_of_ne_zero hzero, _, _, he, Option.map_eq_some_iff.mpr ⟨_, hother, rfl⟩,
      hmoved, hv⟩

theorem histFwd_spec (fat : Fatfs φ η) (m : Mount φ) (font : Font) (s : FmNav) :
    s.hist.length ≤ s.histI + 1 ∧ histFwd fat m font s = some s ∨ ∃ e s', s.hist[s.histI + 1]? =
      some e ∧ histFwd fat m font s = some s' ∧ Moved fat m s e s' ∧
      s'.visits = (s.visits.remember s.place).forward := by
  unfold histFwd
  by_cases hlast : s.hist.length ≤ s.histI + 1
  · exact .inl ⟨hlast, if_pos hlast⟩
  · rw [if_neg hlast]
    have he := List.getElem?_eq_getElem (Nat.lt_of_not_le hlast)
    obtain ⟨hother, hmoved, hv⟩ := moveTo_spec fat m font (i := s.histI + 1) (by omega) he
    exact .inr ⟨_, _, he, Option.map_eq_some_iff.mpr ⟨_, hother, rfl⟩, hmoved, hv⟩

def Travels (fat : Fatfs φ η) (m : Mount φ) (s s' : FmNav) : Prop :=
  s' = s ∨ ∃ i e, i ≠ s.histI ∧ s.hist[i]? = some e ∧ Moved fat m s e s' ∧
    s'.visits = ⟨(s.visits.remember s.place).places, i⟩

theorem histBack_travels (hin : s.visits.Inside) (h : histBack fat m font s = some s') :
    Travels fat m s s' := by
  rcases histBack_spec fat m font hin with ⟨-, hsame⟩ | ⟨hpos, e, t, he, ht, hmoved, hv⟩
  · exact .inl (Option.some.inj (h.symm.trans hsame))
  · obtain rfl := Option.some.inj (ht.symm.trans h)
    exact .inr ⟨s.histI - 1, e, by omega, he, hmoved, hv⟩

theorem histFwd_travels (h : histFwd fat m font s = some s') : Travels fat m s s' := by
  rcases histFwd_spec fat m font s with ⟨-, hsame⟩ | ⟨e, t, he, ht, hmoved, hv⟩
  · exact .inl (Option.some.inj (h.symm.trans hsame))
  · obtain rfl := Option.some.inj (ht.symm.trans h)
    exact .inr ⟨s.histI + 1, e, by omega, he, hmoved, hv⟩

end Moves

section Outcomes

variable {fat : FatIo φ η} {view : Mount φ → Bytes → Opened} {e : FmEvent}

theorem stays_up (s : FmNav) : Stays s (up font s) := by
  unfold up
  split
  · refine Stays.ensureVisible ⟨rfl, rfl, rfl, rfl, rfl, fun h => ⟨?_, h.plain⟩⟩
    have hsel := h.sel
    rw [SelValid] at hsel ⊢
    change s.sel - 1 < s.visible.length ∨ s.visible.length = 0 ∧ s.sel - 1 = 0
    omega
  · exact .refl s

theorem stays_down (s : FmNav) : Stays s (down font s) := by
  unfold down
  dsimp only
  split
  · rename_i h
    exact Stays.ensureVisible ⟨rfl, rfl, rfl, rfl, rfl, fun hs => ⟨.inl h.2.2, hs.plain⟩⟩
  · exact .refl s

theorem stays_typeahead (c : UInt8) (now : ℕ) (s : FmNav) : Stays s (typeahead font c now s) := by
  unfold typeahead
  dsimp only
  split
  · exact ⟨rfl, rfl, rfl, rfl, rfl, fun h => ⟨h.sel, h.plain⟩⟩
  · rename_i i hi
    refine Stays.ensureVisible ⟨rfl, rfl, rfl, rfl, rfl, fun h => ⟨.inl ?_, h.plain⟩⟩
    exact (List.findIdx?_eq_some_iff_getElem.mp hi).1

theorem stays_searchPush (c : UInt8) (now : ℕ) (s : FmNav) : Stays s (searchPush font c now s) := by
  unfold searchPush
  split
  · exact .refl s
  · rename_i hc
    have hplain : c < 0x80 := UInt8.lt_of_le_of_lt (not_not.mp hc).2 (by decide)
    split
    · split
      · exact ⟨rfl, rfl, rfl, rfl, rfl, fun h => ⟨h.sel, h.plain⟩⟩
      · exact .refl s
    · split
      · refine ⟨rfl, rfl, rfl, rfl, rfl, fun h => ⟨selValid_first rfl, fun d hd => ?_⟩⟩
        rcases List.mem_append.mp hd with hd | hd
        · exact h.plain d hd
        · exact List.mem_singleton.mp hd ▸ hplain
      · exact .refl s
    · split
      · exact stays_typeahead c now s
      · exact .refl s

theorem stays_rightClickAt (lx ly : ℕ) (s : FmNav) : Stays s (rightClickAt font lx ly s) := by
  unfold rightClickAt
  split
  · exact .refl s
  · dsimp only
    split
    · exact .refl s
    · rename_i h
      exact ⟨rfl, rfl, rfl, rfl, rfl, fun hs => ⟨.inl (Nat.lt_of_not_le h), hs.plain⟩⟩

theorem stays_pressed (font : Font) (s : FmNav) (e : FmEvent) : Stays s (pressed font s e) := by
  unfold pressed
  split
  · dsimp only
    split
    · rename_i h
      exact ⟨rfl, rfl, rfl, rfl, rfl, fun hs => ⟨.inl h.2.2.2.2, hs.plain⟩⟩
    · exact .refl s
  · exact .refl s

theorem visible_dropLast (hplain : ∀ c ∈ s.search, c < 0x80) :
    s.visible.length ≤ ({ s with search := s.search.dropLast } : FmNav).visible.length := by
  have hshort : ∀ c ∈ s.search.dropLast, c < 0x80 :=
    fun c hc => hplain c (List.dropLast_subset _ hc)
  have hpre : s.search.dropLast <+: s.search := List.dropLast_prefix _
  unfold Fm.visible
  dsimp only
  by_cases hnil : s.search = []
  · rw [hnil]
    exact Nat.le_refl _
  rw [if_neg hnil, if_pos (Task.utf8Valid_ascii hplain)]
  split
  · exact List.length_filter_le _ _
  · rw [if_pos (Task.utf8Valid_ascii hshort)]
    refine List.Sublist.length_le (List.monotone_filter_right _ fun ent h => ?_)
    have hinf := of_decide_eq_true h
    exact decide_eq_true ((hpre.map asciiLower).isInfix.trans hinf)

theorem stays_left (s : FmNav) : Stays s s.left := by
  unfold left
  split
  · exact ⟨rfl, rfl, rfl, rfl, rfl, fun h => ⟨h.sel, h.plain⟩⟩
  · refine ⟨rfl, rfl, rfl, rfl, rfl,
      fun h => ⟨?_, fun c hc => h.plain c (List.dropLast_subset _ hc)⟩⟩
    have hmore := visible_dropLast h.plain
    have hsel := h.sel
    rw [SelValid] at hsel
    change s.sel < ({ s with search := s.search.dropLast } : FmNav).visible.length ∨
      ({ s with search := s.search.dropLast } : FmNav).visible.length = 0 ∧ s.sel = 0
    omega
  · exact .refl s

section Leads

variable {fat : Fatfs φ η}

def Leads (fat : Fatfs φ η) (m : Mount φ) (s s' : FmNav) : Prop :=
  Stays s s' ∨ ∃ path, Led s path ∧ s' = go fat m path true s

theorem leads_goParent (s : FmNav) : Leads fat m s (goParent fat m s) := by
  unfold goParent
  split
  · exact .inr ⟨_, .parent, rfl⟩
  · exact .inl (.refl s)

theorem leads_backInner (s : FmNav) : Leads fat m s (backInner fat m s) := by
  unfold backInner
  split
  · exact .inl ⟨rfl, rfl, rfl, rfl, rfl, fun h => ⟨h.sel, h.plain⟩⟩
  · exact .inl ⟨rfl, rfl, rfl, rfl, rfl, fun h => ⟨h.sel, h.plain⟩⟩
  · exact leads_goParent s

theorem mem_ents_of_visible {ent : DirEnt} (h : ent ∈ s.visible) : ent ∈ s.ents := by
  unfold Fm.visible at h
  split at h
  · exact h
  · exact List.mem_of_mem_filter h

theorem leads_activate (view : Mount φ → Bytes → Opened) (s : FmNav) :
    Leads fat m s (activate fat m view s) := by
  unfold activate
  split
  · exact .inl (.refl s)
  split
  · exact .inl (.refl s)
  rename_i ent hent
  have hmem := mem_ents_of_visible (List.mem_of_getElem? hent)
  split
  · exact .inr ⟨_, .parent, rfl⟩
  dsimp only
  split
  · exact .inr ⟨_, .child hmem, rfl⟩
  split
  · exact .inl ⟨rfl, rfl, rfl, rfl, rfl, fun h => ⟨h.sel, h.plain⟩⟩
  · exact .inl ⟨rfl, rfl, rfl, rfl, rfl, fun h => ⟨h.sel, h.plain⟩⟩
  · exact .inl (.refl s)

theorem mem_of_treeRow {names : List Bytes} {ly y : ℕ} {name : Bytes}
    (h : treeRow font ly y names = some name) : name ∈ names := by
  induction names generalizing y with
  | nil => cases h
  | cons n names ih =>
    rw [treeRow] at h
    split at h
    · obtain rfl := Option.some.inj h
      exact List.mem_cons_self
    · exact List.mem_cons_of_mem _ (ih h)

theorem leads_clickSidebar (ly : ℕ) (s : FmNav) : Leads fat m s (clickSidebar fat m font ly s) := by
  unfold clickSidebar
  dsimp only
  split
  · exact .inr ⟨_, .root, rfl⟩
  split
  · exact .inr ⟨_, .docs, rfl⟩
  generalize (if s.placesDocs = true then _ else (_ : ℕ)) = y
  split
  · exact .inr ⟨_, .root, rfl⟩
  split
  · split
    · exact .inl (.refl s)
    · rename_i name hname
      obtain ⟨ent, hent, rfl⟩ := List.mem_map.mp (mem_of_treeRow hname)
      exact .inr ⟨_, .child (List.mem_of_mem_filter hent), rfl⟩
  · exact .inl (.refl s)

theorem leads_back (s : FmNav) : Leads fat m s (back fat m s) := by
  unfold back
  split
  · split
    · exact .inl ⟨rfl, rfl, rfl, rfl, rfl, fun h => ⟨h.sel, h.plain⟩⟩
    · exact .inl ⟨rfl, rfl, rfl, rfl, rfl, fun h => ⟨h.sel, h.plain⟩⟩
  · split
    · refine .inl ⟨rfl, rfl, rfl, rfl, rfl, fun h => ⟨selValid_first rfl, fun c hc => ?_⟩⟩
      exact h.plain c (List.dropLast_subset _ hc)
    · exact .inl ⟨rfl, rfl, rfl, rfl, rfl, fun h => ⟨h.sel, h.plain⟩⟩
  · exact leads_backInner s

theorem leads_esc (s : FmNav) : Leads fat m s (esc fat m s) := by
  unfold esc
  split
  · exact leads_backInner s
  · exact leads_backInner s
  · split
    · split
      · exact .inl ⟨rfl, rfl, rfl, rfl, rfl, fun _ => ⟨selValid_first rfl, by simp⟩⟩
      · exact .inl ⟨rfl, rfl, rfl, rfl, rfl, fun h => ⟨h.sel, h.plain⟩⟩
    · exact .inl ⟨rfl, rfl, rfl, rfl, rfl, fun h => ⟨h.sel, h.plain⟩⟩
    · exact .inl (.refl s)

end Leads

theorem pressed_of_not_row {lx ly w h now : ℕ}
    (hrow : ly < listY0 font ∨ lx < sideW ∨ s.mode ≠ .list) :
    pressed font s (.click lx ly w h now) = s := by
  refine if_neg fun hp => ?_
  obtain ⟨-, hx, hy, hmode, -⟩ := hp
  rcases hrow with hrow | hrow | hrow
  · exact absurd hy (Nat.not_le_of_lt hrow)
  · exact absurd hx (Nat.not_le_of_lt hrow)
  · exact hrow hmode

theorem Led.of_stays (h : Stays s s') (hl : Led s' path) : Led s path := by
  cases hl with
  | root => exact .root
  | docs => exact .docs
  | parent => exact h.cwd ▸ .parent
  | child hent => exact h.cwd ▸ .child (h.ents ▸ hent)
  | crumb hseg => exact .crumb (h.cwd ▸ hseg)

theorem Leads.outcome (hl : Leads fat.toFatfs m (pressed font s e) s') :
    Outcome fat font m s e s' := by
  rcases hl with hstay | ⟨path, hled, rfl⟩
  · exact .stay ((stays_pressed font s e).trans hstay)
  · exact .led (hled.of_stays (stays_pressed font s e))

theorem clickNavbar_outcome {lx ly w h now : ℕ} (hly : ly < navH)
    (hs : clickNavbar fat.toFatfs m font lx w s = some s') :
    Outcome fat font m s (.click lx ly w h now) s' := by
  have hpress : pressed font s (.click lx ly w h now) = s :=
    pressed_of_not_row (.inl (Nat.lt_of_lt_of_le hly (Nat.le_add_right _ _)))
  have hplace : ∀ t, Leads fat.toFatfs m s t → Outcome fat font m s (.click lx ly w h now) t := by
    intro t ht
    rw [← hpress] at ht
    exact ht.outcome
  unfold clickNavbar at hs
  split at hs
  · exact .back hpress hs
  · exact .fwd hpress hs
  · obtain rfl := Option.some.inj hs
    exact hplace _ (leads_goParent s)
  · obtain rfl := Option.some.inj hs
    exact .stay ⟨rfl, rfl, rfl, rfl, rfl, fun h => ⟨h.sel, h.plain⟩⟩
  · obtain rfl := Option.some.inj hs
    exact .stay ⟨rfl, rfl, rfl, rfl, rfl, fun h => ⟨h.sel, h.plain⟩⟩
  · dsimp only at hs
    split at hs
    · obtain rfl := Option.some.inj hs
      exact .stay ⟨rfl, rfl, rfl, rfl, rfl, fun h => ⟨h.sel, h.plain⟩⟩
    split at hs
    · obtain rfl := Option.some.inj hs
      exact .stay (.refl s)
    · rename_i seg hseg
      obtain rfl := Option.some.inj hs
      exact hplace _ (.inr ⟨_, .crumb (List.mem_of_getElem? hseg), rfl⟩)

theorem clickAt_outcome {lx ly w h now : ℕ} (hly : ly < h)
    (hs : clickAt fat.toFatfs m font view lx ly w now s = some s') :
    Outcome fat font m s (.click lx ly w h now) s' := by
  have hplace : pressed font s (.click lx ly w h now) = s → ∀ t, Leads fat.toFatfs m s t →
      Outcome fat font m s (.click lx ly w h now) t := by
    intro hpress t ht
    rw [← hpress] at ht
    exact ht.outcome
  unfold clickAt at hs
  split at hs
  · rename_i hnav
    exact clickNavbar_outcome hnav hs
  split at hs
  · rename_i hside
    obtain rfl := Option.some.inj hs
    exact hplace (pressed_of_not_row (.inr (.inl hside))) _ (leads_clickSidebar ly s)
  rename_i hside
  split at hs
  · rename_i hmode
    obtain rfl := Option.some.inj hs
    exact hplace (pressed_of_not_row (.inr (.inr (by simp [hmode])))) _ (leads_backInner s)
  · rename_i hmode
    obtain rfl := Option.some.inj hs
    exact hplace (pressed_of_not_row (.inr (.inr (by simp [hmode])))) _ (leads_backInner s)
  rename_i hmode
  split at hs
  · obtain rfl := Option.some.inj hs
    exact .stay ⟨rfl, rfl, rfl, rfl, rfl, fun h => ⟨h.sel, h.plain⟩⟩
  rename_i hlist
  dsimp only at hs
  split at hs
  · obtain rfl := Option.some.inj hs
    exact .stay ⟨rfl, rfl, rfl, rfl, rfl, fun h => ⟨h.sel, h.plain⟩⟩
  rename_i hrow
  have hpress : pressed font s (.click lx ly w h now) = { s with
      nav := .list, sel := min (s.scroll + (ly - listY0 font) / rowH font) (2 ^ 64 - 1),
      lastSel := min (s.scroll + (ly - listY0 font) / rowH font) (2 ^ 64 - 1),
      lastClickAt := now } :=
    if_pos ⟨hly, Nat.le_of_not_lt hside, Nat.le_of_not_lt hlist, hmode, Nat.lt_of_not_le hrow⟩
  obtain rfl := Option.some.inj hs
  rw [← hpress]
  split
  · exact (leads_activate view _).outcome
  · exact .stay (stays_pressed font s _)

theorem act_outcome (hs : act fat view font m s e = some s') : Outcome fat font m s e s' := by
  cases e with
  | click lx ly w h now =>
    rw [act] at hs
    split at hs
    · rename_i hly
      exact clickAt_outcome hly hs
    · obtain rfl := Option.some.inj hs
      exact .stay (.refl s)
  | enter =>
    obtain rfl := Option.some.inj hs
    unfold enter
    split
    · rename_i hnav
      split
      · rename_i hlist
        exact .enter ⟨rfl, hnav, hlist⟩
      · exact .stay (.refl s)
    · exact (leads_activate view s).outcome
  | delete =>
    obtain rfl := Option.some.inj hs
    exact .delete rfl
  | render h =>
    obtain rfl := Option.some.inj hs
    split
    · exact .stay (.refl s)
    · exact .stay (render_stays font h s)
  | rightClick lx ly =>
    obtain rfl := Option.some.inj hs
    exact .stay (stays_rightClickAt lx ly s)
  | up =>
    obtain rfl := Option.some.inj hs
    exact .stay (stays_up s)
  | down =>
    obtain rfl := Option.some.inj hs
    exact .stay (stays_down s)
  | left =>
    obtain rfl := Option.some.inj hs
    exact .stay (stays_left s)
  | back =>
    obtain rfl := Option.some.inj hs
    exact (leads_back s).outcome
  | push c now =>
    obtain rfl := Option.some.inj hs
    exact .stay (stays_searchPush c now s)
  | esc =>
    obtain rfl := Option.some.inj hs
    exact (leads_esc s).outcome
  | menuOpen =>
    obtain rfl := Option.some.inj hs
    exact (leads_activate view s).outcome
  | menuGoUp =>
    obtain rfl := Option.some.inj hs
    exact (leads_goParent s).outcome

theorem repaint_stays (font : Font) (s : FmNav) (e : FmEvent) : Stays s (repaint font s e) := by
  unfold repaint
  split
  · split
    · exact render_stays font _ s
    · exact .refl s
  · exact .refl s

theorem step_outcome {a : Mount φ × FmEvent} (hs : step fat view font s a = some s') :
    ∃ t, Outcome fat font a.1 s a.2 t ∧ Stays t s' := by
  obtain ⟨t, ht, rfl⟩ := Option.map_eq_some_iff.mp hs
  exact ⟨t, act_outcome ht, repaint_stays font t a.2⟩

end Outcomes

section History

variable {fat : FatIo φ η} {view : Mount φ → Bytes → Opened} {e : FmEvent}

/-- The place in the history is the folder of the panel. -/
def InStep (s : FmNav) : Prop :=
  s.histI < s.hist.length ∧ (s.hist[s.histI]?).map HistEnt.path = some s.cwd

theorem init_inStep (fat : Fatfs φ η) (m : Mount φ) : (init fat m).InStep := ⟨Nat.one_pos, rfl⟩

theorem InStep.of_visits (hin : s.visits.Inside) {p : HistEnt} (hp : s.visits.here = some p)
    (hcwd : s.cwd = p.path) :
    s.InStep := by
  refine ⟨hin, ?_⟩
  rw [hcwd]
  exact congrArg (Option.map HistEnt.path) hp

theorem go_inStep (fat : Fatfs φ η) (m : Mount φ) (path : Bytes) (s : FmNav) :
    (go fat m path true s).InStep := by
  have hv := go_visits fat m path s
  refine .of_visits (p := ⟨path, 0, 0⟩) ?_ ?_ rfl
  · rw [hv]
    exact Visits.visit_inside
  · rw [hv]
    exact Visits.here_visit

theorem go_remembers (fat : FatIo φ η) (m : Mount φ) (hin : s.visits.Inside) (path : Bytes) :
    (go fat.toFatfs m path true s).hist[s.histI]? = some s.place ∧
    (go fat.toFatfs m path true s).histI = s.histI + 1 := by
  have hv := go_visits fat.toFatfs m path s
  have hin' : (s.visits.remember s.place).Inside := Visits.inside_remember.mpr hin
  refine ⟨?_, (congrArg Visits.pos hv).trans (Visits.visit_pos hin')⟩
  have hbefore := Visits.visit_before (a := ⟨path, 0, 0⟩) (i := s.histI) (Nat.le_refl _) hin'
  rw [← hv] at hbefore
  exact hbefore.trans (Visits.here_remember hin)

theorem deleteSel_same (fat : FatIo φ η) (font : Font) (m : Mount φ) (s : FmNav) :
    (deleteSel fat m font s).2.2.cwd = s.cwd ∧ (deleteSel fat m font s).2.2.hist = s.hist ∧
    (deleteSel fat m font s).2.2.histI = s.histI := by
  unfold deleteSel
  split
  · exact ⟨rfl, rfl, rfl⟩
  split
  · exact ⟨rfl, rfl, rfl⟩
  split
  · exact ⟨rfl, rfl, rfl⟩
  dsimp only
  split
  · exact ⟨rfl, rfl, rfl⟩
  · dsimp only
    generalize ht : ({ reload fat.toFatfs _ s with sel := _ } : FmNav) = t
    obtain ⟨k, hk⟩ := ensureVisible_eq font t
    rw [hk]
    subst ht
    exact ⟨rfl, rfl, rfl⟩

theorem InStep.congr (h : s.InStep) (hcwd : s'.cwd = s.cwd) (hhist : s'.hist = s.hist)
    (hpos : s'.histI = s.histI) : s'.InStep := by
  rw [InStep, hcwd, hhist, hpos]
  exact h

theorem Stays.inStep (h : Stays s s') (hs : s.InStep) : s'.InStep := hs.congr h.cwd h.hist h.histI

theorem Travels.inStep (h : Travels fat.toFatfs m s s') (hs : s.InStep) : s'.InStep := by
  rcases h with rfl | ⟨i, p, hi, hp, hmoved, hv⟩
  · exact hs
  · have hother : (s.visits.remember s.place).places[i]? = some p :=
      (Visits.remember_other (v := s.visits) hi).trans hp
    refine .of_visits (p := p) ?_ ?_ hmoved.cwd
    · rw [hv]
      exact (List.getElem?_eq_some_iff.mp hother).1
    · rw [hv]
      exact hother

theorem Outcome.inStep {t : FmNav} (h : Outcome fat font m s e t) (hs : s.InStep) : t.InStep := by
  cases h with
  | stay hstay => exact hstay.inStep hs
  | led hled => exact go_inStep _ _ _ _
  | enter hent => exact go_inStep _ _ _ _
  | back he hback => exact (histBack_travels hs.1 hback).inStep hs
  | fwd he hfwd => exact (histFwd_travels hfwd).inStep hs
  | delete he =>
    obtain ⟨hcwd, hhist, hpos⟩ := deleteSel_same fat font m s
    exact hs.congr hcwd hhist hpos

theorem step_inStep {a : Mount φ × FmEvent} (hs : step fat view font s a = some s') (h : s.InStep) :
    s'.InStep := by
  obtain ⟨t, ht, hstay⟩ := step_outcome hs
  exact hstay.inStep (ht.inStep h)

end History

section Places

variable {fat : FatIo φ η} {view : Mount φ → Bytes → Opened} {e : FmEvent} {P Q : Bytes → Prop}

/-- Every path the panel keeps has a property, and so has every name it shows. -/
structure Places (P Q : Bytes → Prop) (s : FmNav) : Prop where
  cwd : P s.cwd
  hist : ∀ p ∈ s.hist, P p.path
  names : ∀ ent ∈ s.ents, Q ent.name

/-- The panel's own ways keep the property of paths, and what is listed has that of names. -/
structure Leading (P Q : Bytes → Prop) (fat : Fatfs φ η) : Prop where
  root : P [slash]
  docs : P docsPath
  parent : ∀ {c}, P c → P (parent c)
  child : ∀ {c n}, P c → Q n → P (join c n)
  crumb : ∀ {c seg}, P c → seg ∈ pathSegments c → P seg.2
  listed : ∀ {m path ent}, ent ∈ listing fat m path → Q ent.name

theorem Leading.led {fat : Fatfs φ η} (h : Leading P Q fat) (hs : Places P Q s) (hl : Led s path) :
    P path := by
  cases hl with
  | root => exact h.root
  | docs => exact h.docs
  | parent => exact h.parent hs.cwd
  | child hent => exact h.child hs.cwd (hs.names _ hent)
  | crumb hseg => exact h.crumb hs.cwd hseg

theorem Places.init {fat : Fatfs φ η} (h : Leading P Q fat) (m : Mount φ) :
    Places P Q (init fat m) where
  cwd := h.root
  hist := by
    intro p hp
    rw [List.mem_singleton.mp hp]
    exact h.root
  names := fun _ hent => h.listed hent

theorem Places.stays (hs : Places P Q s) (h : Stays s s') : Places P Q s' :=
  ⟨h.cwd ▸ hs.cwd, h.hist ▸ hs.hist, h.ents ▸ hs.names⟩

theorem Places.go {fat : Fatfs φ η} (hs : Places P Q s) (h : Leading P Q fat) (hpath : P path) :
    Places P Q (go fat m path true s) where
  cwd := hpath
  hist := by
    intro p hp
    have hv :
        (FmNav.go fat m path true s).hist =
          ((s.visits.remember s.place).visit ⟨path, 0, 0⟩).places :=
      congrArg Visits.places (go_visits fat m path s)
    rw [hv] at hp
    rcases Visits.mem_visit hp with hp | rfl
    · rcases Visits.mem_remember hp with hp | rfl
      · exact hs.hist p hp
      · exact hs.cwd
    · exact hpath
  names := fun _ hent => h.listed hent

theorem Places.travels {fat : Fatfs φ η} (hs : Places P Q s) (hl : Leading P Q fat)
    (h : Travels fat m s s') : Places P Q s' := by
  rcases h with rfl | ⟨i, p, -, hp, hmoved, hv⟩
  · exact hs
  · have hhist : s'.hist = (s.visits.remember s.place).places := congrArg Visits.places hv
    refine ⟨hmoved.cwd ▸ hs.hist p (List.mem_of_getElem? hp), ?_,
      fun _ hent => hl.listed (hmoved.ents ▸ hent)⟩
    intro q hq
    rw [hhist] at hq
    rcases Visits.mem_remember hq with hq | rfl
    · exact hs.hist q hq
    · exact hs.cwd

theorem deleteSel_ents (fat : FatIo φ η) (font : Font) (m : Mount φ) (s : FmNav) :
    (deleteSel fat m font s).2.2.ents = s.ents ∨ ∃ m', (deleteSel fat m font s).2.2.ents =
      listing fat.toFatfs m' s.cwd := by
  unfold deleteSel
  split
  · exact .inl rfl
  split
  · exact .inl rfl
  split
  · exact .inl rfl
  dsimp only
  split
  · exact .inl rfl
  · rename_i m' _
    refine .inr ⟨m', ?_⟩
    dsimp only
    generalize ht : ({ reload fat.toFatfs m' s with sel := _ } : FmNav) = t
    obtain ⟨k, hk⟩ := ensureVisible_eq font t
    rw [hk]
    subst ht
    rfl

theorem Outcome.places {t : FmNav} (h : Outcome fat font m s e t) (hl : Leading P Q fat.toFatfs)
    (hin : s.InStep) (hs : Places P Q s) (hent : Enters fat.toFatfs m s e → P s.pathText) :
    Places P Q t := by
  cases h with
  | stay hstay => exact hs.stays hstay
  | led hled => exact (hs.stays (stays_pressed font s e)).go hl (hl.led hs hled)
  | enter henters => exact hs.go hl (hent henters)
  | back he hback => exact hs.travels hl (histBack_travels hin.1 hback)
  | fwd he hfwd => exact hs.travels hl (histFwd_travels hfwd)
  | delete he =>
    obtain ⟨hcwd, hhist, -⟩ := deleteSel_same fat font m s
    refine ⟨hcwd ▸ hs.cwd, hhist ▸ hs.hist, ?_⟩
    rcases deleteSel_ents fat font m s with hents | ⟨m', hents⟩
    · rw [hents]
      exact hs.names
    · rw [hents]
      exact fun ent hmem => hl.listed hmem

theorem step_places {a : Mount φ × FmEvent} (hl : Leading P Q fat.toFatfs) (hin : s.InStep)
    (hs : Places P Q s) (hstep : step fat view font s a = some s')
    (hent : Enters fat.toFatfs a.1 s a.2 → P s.pathText) : Places P Q s' := by
  obtain ⟨t, ht, hstay⟩ := step_outcome hstep
  exact (ht.places hl hin hs hent).stays hstay

end Places

section Read

variable {fat : FatIo φ η} {view : Mount φ → Bytes → Opened} {e : FmEvent}

/-- The rows are those of the panel's path as it was read. -/
def Read (fat : Fatfs φ η) (s : FmNav) : Prop :=
  ∃ m : Mount φ, m.workDir = s.readIn ∧ s.ents = listing fat m s.cwd

def Rereads (fat : Fatfs φ η) (m : Mount φ) (s s' : FmNav) : Prop :=
  (s'.readIn = s.readIn ∧ s'.ents = s.ents ∧ s'.cwd = s.cwd) ∨
    ∃ m' : Mount φ, m'.workDir = m.workDir ∧ s'.readIn = m.workDir ∧ s'.ents = listing fat m' s'.cwd

theorem init_read (fat : Fatfs φ η) (m : Mount φ) : (init fat m).Read fat := ⟨m, rfl, rfl⟩

theorem Rereads.read {fat : Fatfs φ η} (h : Rereads fat m s s') (hs : s.Read fat) :
    s'.Read fat := by
  rcases h with ⟨hread, hents, hcwd⟩ | ⟨m', hm', hread, hents⟩
  · obtain ⟨m', hm', hs⟩ := hs
    exact ⟨m', hm'.trans hread.symm, by rw [hents, hcwd, hs]⟩
  · exact ⟨m', hm'.trans hread.symm, hents⟩

theorem Stays.rereads {fat : Fatfs φ η} {t : FmNav} (h : Stays s t) (h' : Rereads fat m t s') :
    Rereads fat m s s' := by
  rcases h' with ⟨hread, hents, hcwd⟩ | h'
  · exact .inl ⟨hread.trans h.readIn, hents.trans h.ents, hcwd.trans h.cwd⟩
  · exact .inr h'

theorem Rereads.stays {fat : Fatfs φ η} {t : FmNav} (h : Rereads fat m s t) (h' : Stays t s') :
    Rereads fat m s s' := by
  rcases h with ⟨hread, hents, hcwd⟩ | ⟨m', hm', hread, hents⟩
  · exact .inl ⟨h'.readIn.trans hread, h'.ents.trans hents, h'.cwd.trans hcwd⟩
  · refine .inr ⟨m', hm', h'.readIn.trans hread, ?_⟩
    rw [h'.ents, h'.cwd, hents]

theorem go_rereads (fat : Fatfs φ η) (m : Mount φ) (path : Bytes) (s : FmNav) :
    Rereads fat m s (go fat m path true s) :=
  .inr ⟨m, rfl, rfl, rfl⟩

theorem Travels.rereads {fat : Fatfs φ η} (h : Travels fat m s s') : Rereads fat m s s' := by
  rcases h with rfl | ⟨i, p, -, -, hmoved, -⟩
  · exact .inl ⟨rfl, rfl, rfl⟩
  · exact .inr ⟨m, rfl, hmoved.readIn, hmoved.cwd ▸ hmoved.ents⟩

theorem deleteSel_rereads (fat : FatIo φ η) (font : Font) (m : Mount φ) (s : FmNav) :
    Rereads fat.toFatfs m s (deleteSel fat m font s).2.2 := by
  unfold deleteSel
  split
  · exact .inl ⟨rfl, rfl, rfl⟩
  split
  · exact .inl ⟨rfl, rfl, rfl⟩
  rename_i ent hent
  split
  · exact .inl ⟨rfl, rfl, rfl⟩
  dsimp only
  split
  · exact .inl ⟨rfl, rfl, rfl⟩
  · rename_i m' hrem
    have hcwd := Mount.remove_cwd fat m (join s.cwd ent.name)
    rw [hrem] at hcwd
    have hdir : m'.workDir = m.workDir := by rw [Mount.workDir, Mount.workDir, hcwd]
    dsimp only
    generalize ht : ({ reload fat.toFatfs m' s with sel := _ } : FmNav) = t
    obtain ⟨k, hk⟩ := ensureVisible_eq font t
    rw [hk]
    subst ht
    exact .inr ⟨m', hdir, hdir, rfl⟩

theorem Outcome.rereads {t : FmNav} (h : Outcome fat font m s e t) (hin : s.InStep) :
    Rereads fat.toFatfs m s t := by
  cases h with
  | stay hstay => exact .inl ⟨hstay.readIn, hstay.ents, hstay.cwd⟩
  | led hled => exact (stays_pressed font s e).rereads (go_rereads _ _ _ _)
  | enter hent => exact go_rereads _ _ _ _
  | back he hback => exact (histBack_travels hin.1 hback).rereads
  | fwd he hfwd => exact (histFwd_travels hfwd).rereads
  | delete he => exact deleteSel_rereads fat font m s

theorem step_rereads {a : Mount φ × FmEvent} (hs : step fat view font s a = some s')
    (hin : s.InStep) : Rereads fat.toFatfs a.1 s s' := by
  obtain ⟨t, ht, hstay⟩ := step_outcome hs
  exact (ht.rereads hin).stays hstay

end Read

end CoeleoOs.Ui.FmNav
