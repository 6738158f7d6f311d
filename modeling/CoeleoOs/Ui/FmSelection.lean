import CoeleoOs.Ui.FmSteps
import CoeleoOs.Ui.TitleElide

/-!
# The highlighted row

In every run the highlight is on one of the rows that the search leaves. A deletion clamps it
against all entries of the folder and leaves the rest to `ensure_visible`, which does nothing
before the first repaint; nothing is searched for until then. The removed file is the one the
row stands for, unless the panel's path is empty or leads elsewhere after a `cd` of the kernel's
shell.
-/

namespace CoeleoOs.Ui.FmNav
open CoeleoOs.Fs CoeleoOs.Lib CoeleoOs.Lib.Machine
open CoeleoOs.Lib.FileStore (Confined)
open CoeleoOs.Sh (Canonical)
open CoeleoOs.Task (Bytes DirEnt)

variable {φ η : Type} {fat : FatIo φ η} {view : Mount φ → Bytes → Opened} {font : Font}
  {m : Mount φ} {path : Bytes} {s s' t : FmNav} {e : FmEvent} {a : Mount φ × FmEvent}

def Drawn (s : FmNav) : Prop := s.lastH = 0 → s.search = [] ∧ s.nav ≠ .search

/-- No repaint, and no search begins. -/
structure Calm (s s' : FmNav) : Prop where
  lastH : s'.lastH = s.lastH
  search : s.search = [] ∧ s.nav ≠ .search → s'.search = [] ∧ s'.nav ≠ .search

section Calm

theorem Calm.refl (s : FmNav) : Calm s s := ⟨rfl, fun h => h⟩

theorem Calm.drawn (h : Calm s s') (hs : s.Drawn) : s'.Drawn :=
  fun hzero => h.search (hs (h.lastH ▸ hzero))

theorem Calm.ensureVisible (h : Calm s s') : Calm s (ensureVisible font s') := by
  obtain ⟨k, hk⟩ := ensureVisible_eq font s'
  rw [hk]
  exact ⟨h.lastH, h.search⟩

theorem calm_go (fat : Fatfs φ η) (m : Mount φ) (path : Bytes) (s : FmNav) :
    Calm s (go fat m path true s) :=
  ⟨rfl, fun _ => ⟨rfl, by simp [go, reload, Fm.reload]⟩⟩

theorem calm_goParent (fat : Fatfs φ η) (m : Mount φ) (s : FmNav) : Calm s (goParent fat m s) := by
  unfold goParent
  split
  · exact calm_go fat m _ s
  · exact .refl s

theorem calm_backInner (fat : Fatfs φ η) (m : Mount φ) (s : FmNav) :
    Calm s (backInner fat m s) := by
  unfold backInner
  split
  · exact ⟨rfl, fun h => h⟩
  · exact ⟨rfl, fun h => h⟩
  · exact calm_goParent fat m s

theorem calm_activate (fat : Fatfs φ η) (m : Mount φ) (view : Mount φ → Bytes → Opened)
    (s : FmNav) : Calm s (activate fat m view s) := by
  unfold activate
  split
  · exact .refl s
  split
  · exact .refl s
  split
  · exact calm_go fat m _ s
  dsimp only
  split
  · exact calm_go fat m _ s
  split
  · exact ⟨rfl, fun h => h⟩
  · exact ⟨rfl, fun h => h⟩
  · exact .refl s

theorem calm_deleteSel (m : Mount φ) (s : FmNav) : Calm s (deleteSel fat m font s).2.2 := by
  unfold deleteSel
  split
  · exact .refl s
  split
  · exact .refl s
  split
  · exact .refl s
  dsimp only
  split
  · exact .refl s
  · exact Calm.ensureVisible ⟨rfl, fun h => h⟩

theorem calm_searchPush (c : UInt8) (now : ℕ) (s : FmNav) : Calm s (searchPush font c now s) := by
  unfold searchPush
  split
  · exact .refl s
  split
  · split
    · exact ⟨rfl, fun h => h⟩
    · exact .refl s
  · rename_i hnav
    split
    · exact ⟨rfl, fun h => absurd hnav h.2⟩
    · exact .refl s
  · split
    · unfold typeahead
      dsimp only
      split
      · exact ⟨rfl, fun h => h⟩
      · exact Calm.ensureVisible ⟨rfl, fun h => h⟩
    · exact .refl s

theorem act_calm (hclick : ∀ lx ly w h now, e ≠ .click lx ly w h now) (hrender : ∀ h, e ≠ .render h)
    (hs : act fat view font m s e = some s') : Calm s s' := by
  cases e with
  | click lx ly w h now => exact absurd rfl (hclick lx ly w h now)
  | render h => exact absurd rfl (hrender h)
  | rightClick lx ly =>
    obtain rfl := Option.some.inj hs
    unfold rightClickAt
    split
    · exact .refl s
    dsimp only
    split
    · exact .refl s
    · exact ⟨rfl, fun h => ⟨h.1, by simp⟩⟩
  | up =>
    obtain rfl := Option.some.inj hs
    unfold up
    split
    · exact Calm.ensureVisible ⟨rfl, fun h => h⟩
    · exact .refl s
  | down =>
    obtain rfl := Option.some.inj hs
    unfold down
    dsimp only
    split
    · exact Calm.ensureVisible ⟨rfl, fun h => h⟩
    · exact .refl s
  | left =>
    obtain rfl := Option.some.inj hs
    unfold left
    split
    · exact ⟨rfl, fun h => h⟩
    · refine ⟨rfl, fun h => ⟨?_, h.2⟩⟩
      simp [h.1]
    · exact .refl s
  | back =>
    obtain rfl := Option.some.inj hs
    unfold back
    split
    · split
      · exact ⟨rfl, fun h => h⟩
      · exact ⟨rfl, fun h => ⟨h.1, by simp⟩⟩
    · rename_i hnav
      exact ⟨by split <;> rfl, fun h => absurd hnav h.2⟩
    · exact calm_backInner _ _ s
  | push c now =>
    obtain rfl := Option.some.inj hs
    exact calm_searchPush c now s
  | enter =>
    obtain rfl := Option.some.inj hs
    unfold enter
    split
    · split
      · exact calm_go _ _ _ s
      · exact .refl s
    · exact calm_activate _ _ view s
  | esc =>
    obtain rfl := Option.some.inj hs
    unfold esc
    split
    · exact calm_backInner _ _ s
    · exact calm_backInner _ _ s
    · split
      · rename_i hnav
        exact ⟨by split <;> rfl, fun h => absurd hnav h.2⟩
      · exact ⟨rfl, fun h => ⟨h.1, by simp⟩⟩
      · exact .refl s
  | delete =>
    obtain rfl := Option.some.inj hs
    exact calm_deleteSel m s
  | menuOpen =>
    obtain rfl := Option.some.inj hs
    exact calm_activate _ _ view s
  | menuGoUp =>
    obtain rfl := Option.some.inj hs
    exact calm_goParent _ _ s

theorem render_drawn {h : ℕ} (hh : h ≠ 0) (s : FmNav) : (render font h s).Drawn := by
  obtain ⟨k, hk⟩ := ensureVisible_eq font { s with lastH := h }
  rw [render, hk]
  exact fun hzero => absurd hzero hh

theorem step_drawn (hs : step fat view font s a = some s') (h : s.Drawn) : s'.Drawn := by
  obtain ⟨m, e⟩ := a
  obtain ⟨t, ht, rfl⟩ := Option.map_eq_some_iff.mp hs
  by_cases hclick : ∃ lx ly w k now, e = .click lx ly w k now
  · obtain ⟨lx, ly, w, k, now, rfl⟩ := hclick
    by_cases hly : ly < k
    · rw [repaint, if_pos hly]
      exact render_drawn (Nat.ne_of_gt (Nat.zero_lt_of_lt hly)) t
    · rw [act, if_neg hly] at ht
      obtain rfl := Option.some.inj ht
      rw [repaint, if_neg hly]
      exact h
  · have hsame : repaint font t e = t := by
      cases e with
      | click lx ly w k now => exact absurd ⟨lx, ly, w, k, now, rfl⟩ hclick
      | _ => rfl
    rw [hsame]
    by_cases hrender : ∃ k, e = .render k
    · obtain ⟨k, rfl⟩ := hrender
      obtain rfl := Option.some.inj ht
      split
      · exact h
      · rename_i hk
        exact render_drawn hk s
    · refine (act_calm ?_ ?_ ht).drawn h
      · rintro lx ly w k now rfl
        exact hclick ⟨lx, ly, w, k, now, rfl⟩
      · rintro k rfl
        exact hrender ⟨k, rfl⟩

end Calm

section Rows

theorem go_rows (fat : Fatfs φ η) (m : Mount φ) (path : Bytes) (s : FmNav) :
    (go fat m path true s).Rows :=
  ⟨selValid_first rfl, by simp [go, reload, Fm.reload]⟩

theorem Travels.rows (h : Travels fat.toFatfs m s s') (hs : s.Rows) : s'.Rows := by
  rcases h with rfl | ⟨i, p, -, -, hmoved, -⟩
  · exact hs
  · refine ⟨?_, hmoved.search ▸ hs.plain⟩
    have hsel := hmoved.sel
    rw [SelValid]
    split at hsel <;> omega

theorem deleteSel_rows (hs : s.Rows) (hdrawn : s.Drawn) : (deleteSel fat m font s).2.2.Rows := by
  unfold deleteSel
  split
  · exact hs
  split
  · exact hs
  split
  · exact hs
  dsimp only
  split
  · exact hs
  rename_i m' _
  dsimp only
  generalize ht : ({ reload fat.toFatfs m' s with
    sel := if (reload fat.toFatfs m' s).ents.length = 0 then 0
      else min s.sel ((reload fat.toFatfs m' s).ents.length - 1) } : FmNav) = t
  have hlast : t.lastH = s.lastH := by rw [← ht]; rfl
  have hsearch : t.search = s.search := by rw [← ht]; rfl
  have hvalid : t.lastH ≠ 0 ∨ t.SelValid := by
    by_cases hzero : s.lastH = 0
    · right
      have hvis : t.visible = t.ents := by rw [Fm.visible, if_pos (hsearch.trans (hdrawn hzero).1)]
      have hsel : t.sel = if t.ents.length = 0 then 0 else min s.sel (t.ents.length - 1) := by
        rw [← ht]
      rw [SelValid, hvis, hsel]
      split <;> omega
    · exact .inl (hlast ▸ hzero)
  have hplain : ∀ c ∈ t.search, c < 0x80 := hsearch ▸ hs.plain
  have hrow := ensureVisible_valid font hvalid
  obtain ⟨k, hk⟩ := ensureVisible_eq font t
  rw [hk] at hrow ⊢
  exact ⟨hrow, hplain⟩

theorem Outcome.rows (h : Outcome fat font m s e t) (hin : s.InStep) (hdrawn : s.Drawn)
    (hs : s.Rows) : t.Rows := by
  cases h with
  | stay hstay => exact hstay.rows hs
  | led hled => exact go_rows _ _ _ _
  | enter hent => exact go_rows _ _ _ _
  | back he hback => exact (histBack_travels hin.1 hback).rows hs
  | fwd he hfwd => exact (histFwd_travels hfwd).rows hs
  | delete he => exact deleteSel_rows hs hdrawn

/-- What holds of the panel in every run, whatever is typed into the path bar. -/
structure Sound (s : FmNav) : Prop where
  inStep : s.InStep
  drawn : s.Drawn
  rows : s.Rows

theorem init_sound (fat : Fatfs φ η) (m : Mount φ) : (init fat m).Sound :=
  ⟨init_inStep fat m, fun _ => ⟨rfl, by simp [init, reload, Fm.reload]⟩,
    selValid_first rfl, by simp [init, reload, Fm.reload]⟩

theorem step_sound (hs : step fat view font s a = some s') (h : s.Sound) : s'.Sound := by
  obtain ⟨t, ht, hstay⟩ := step_outcome hs
  exact ⟨step_inStep hs h.inStep, step_drawn hs h.drawn,
    hstay.rows (ht.rows h.inStep h.drawn h.rows)⟩

theorem run_sound {ts : List (Trans FmNav (Mount φ × FmEvent))}
    (h : Path (step fat view font) (init fat.toFatfs m) ts s) : s.Sound :=
  h.invariant (C := fun _ => True) (init_sound _ _) (fun _ ht hI _ => step_sound ht hI) (by simp)

end Rows

section Delete

/-- The row that is drawn with the highlight. -/
def Highlights (s : FmNav) (ent : DirEnt) : Prop := s.mode = .list ∧ s.visible[s.sel]? = some ent

def rowFile (m : Mount φ) (s : FmNav) (ent : DirEnt) : Bytes :=
  m.relOf (join (Fs.resolve s.readIn s.cwd) ent.name)

/-- The path of the panel still leads to the directory that the rows were read from, and it is not
empty unless that means the root. -/
def SameFolder (m : Mount φ) (s : FmNav) : Prop :=
  Fs.resolve m.workDir s.cwd = Fs.resolve s.readIn s.cwd ∧ (s.cwd ≠ [] ∨ m.workDir = [slash])

/-- Nothing is removed unless a file is highlighted, and then no other file is touched. -/
structure DeletesRow (spec : FatSpec fat) (font : Font) (m : Mount φ) (s : FmNav) : Prop where
  nothing : (∀ ent, s.Highlights ent → ent.isDir = true) →
    (deleteSel fat m font s).1 = none ∧ (deleteSel fat m font s).2.1 = m
  row : ∀ ent, s.Highlights ent → ent.isDir = false →
    Confined (rowFile m s ent) (m.store spec) ((deleteSel fat m font s).2.1.store spec) ∧
      ((deleteSel fat m font s).1 ≠ none →
        ((deleteSel fat m font s).2.1.store spec).node (rowFile m s ent) = none)

theorem ensureVisible_fm (font : Font) (s : FmNav) :
    (ensureVisible font s).toFm = s.toFm.ensureVisible := by
  obtain ⟨k, hk⟩ := ensureVisible_eq font s
  rw [hk, Fm.ensureVisible]
  by_cases hzero : s.lastH = 0
  · rw [if_pos hzero, if_pos hzero]
  · rw [if_neg hzero, if_neg hzero]
    dsimp only
    split
    · rename_i hnone
      rw [hnone, Nat.zero_sub, Nat.min_zero]
    · rfl

theorem deleteSel_fm (m : Mount φ) (s : FmNav) :
    ((deleteSel fat m font s).1, (deleteSel fat m font s).2.1, (deleteSel fat m font s).2.2.toFm) =
      s.toFm.deleteSel fat m := by
  by_cases hmode : s.mode = .list
  · cases hent : s.visible[s.sel]? with
    | none => simp [deleteSel, Fm.deleteSel, hmode, hent]
    | some ent =>
      cases hdir : ent.isDir with
      | true => simp [deleteSel, Fm.deleteSel, hmode, hent, hdir]
      | false =>
        rcases hrem : m.remove fat (join s.cwd ent.name) with ⟨err | _, m'⟩
        · simp [deleteSel, Fm.deleteSel, hmode, hent, hdir, hrem]
        · simp [deleteSel, Fm.deleteSel, hmode, hent, hdir, hrem, ensureVisible_fm, reload]
  · simp [deleteSel, Fm.deleteSel, hmode]

theorem deleteSel_row (fat : FatIo φ η) (font : Font) (m : Mount φ) {ent : DirEnt}
    (hent : s.Highlights ent) (hfile : ent.isDir = false) :
    (deleteSel fat m font s).2.1 = (m.remove fat (join s.cwd ent.name)).2 ∧
      ((deleteSel fat m font s).1 ≠ none → (m.remove fat (join s.cwd ent.name)).1 = .ok ()) := by
  unfold deleteSel
  rw [if_neg (not_not.mpr hent.1), hent.2]
  dsimp only
  rw [if_neg (by simp [hfile])]
  split
  · rename_i hrem
    rw [hrem]
    exact ⟨rfl, fun h => absurd rfl h⟩
  · rename_i hrem
    rw [hrem]
    exact ⟨rfl, fun _ => rfl⟩

theorem deleteSel_nothing (h : ∀ ent, s.Highlights ent → ent.isDir = true) :
    (deleteSel fat m font s).1 = none ∧ (deleteSel fat m font s).2.1 = m := by
  unfold deleteSel
  split
  · exact ⟨rfl, rfl⟩
  rename_i hmode
  split
  · exact ⟨rfl, rfl⟩
  rename_i ent hent
  rw [if_pos (h ent ⟨not_not.mp hmode, hent⟩)]
  exact ⟨rfl, rfl⟩

theorem deletesRow (spec : FatSpec fat) (hwd : Canonical m.workDir) (h : SameFolder m s) :
    DeletesRow spec font m s := by
  obtain ⟨hsame, hne⟩ := h
  refine ⟨deleteSel_nothing, fun ent hent hfile => ?_⟩
  obtain ⟨hmount, hok⟩ := deleteSel_row fat font m hent hfile
  have hpath : rowFile m s ent = m.relOf (join s.cwd ent.name) := by
    rw [rowFile, ← hsame, Mount.relOf, Mount.relOf, ← resolve_row hwd hne]
  obtain ⟨-, hconf, -, hgone⟩ := Mount.remove_spec spec (m := m) (Prod.eta _).symm
  rw [hpath, hmount]
  exact ⟨hconf, fun hsome => hgone (hok hsome)⟩

/-- The text that is entered, if one is, begins with a slash. -/
def EntersRooted (fat : Fatfs φ η) (t : Trans FmNav (Mount φ × FmEvent)) : Prop :=
  Enters fat t.act.1 t.pre t.act.2 → t.pre.pathText.head? = some slash

/-- The working directory is this one, and the empty text is entered only where it is the root. -/
def EntersIn (fat : Fatfs φ η) (wd : Bytes) (t : Trans FmNav (Mount φ × FmEvent)) : Prop :=
  t.act.1.workDir = wd ∧ (Enters fat t.act.1 t.pre t.act.2 → t.pre.pathText ≠ [] ∨ wd = [slash])

theorem leading_rooted (fat : Fatfs φ η) :
    Leading (fun p => p.head? = some slash) (fun _ => True) fat where
  root := rfl
  docs := rfl
  parent := parent_rooted
  child := fun h _ => join_rooted h _
  crumb := fun _ => pathSegments_rooted
  listed := fun _ => trivial

theorem leading_ne_nil (fat : Fatfs φ η) (wd : Bytes) :
    Leading (fun p => p ≠ [] ∨ wd = [slash]) (fun _ => True) fat where
  root := .inl (List.cons_ne_nil _ _)
  docs := .inl (List.cons_ne_nil _ _)
  parent := fun _ => .inl (parent_ne_nil _)
  child := fun _ _ => .inl (join_ne_nil _ _)
  crumb := fun _ h => .inl (pathSegments_ne_nil h)
  listed := fun _ => trivial

section Run

variable {ts : List (Trans FmNav (Mount φ × FmEvent))}

theorem run_read (h : Path (step fat view font) (init fat.toFatfs m) ts s) :
    s.Read fat.toFatfs := by
  have hboth : s.Sound ∧ s.Read fat.toFatfs := by
    refine h.invariant (I := fun s => s.Sound ∧ s.Read fat.toFatfs) (C := fun _ => True)
      ⟨init_sound _ _, init_read _ m⟩ ?_ (by simp)
    intro t ht hI _
    exact ⟨step_sound ht hI.1, (step_rereads ht hI.1.inStep).read hI.2⟩
  exact hboth.2

theorem run_rooted (h : Path (step fat view font) (init fat.toFatfs m) ts s)
    (hc : ∀ t ∈ ts, EntersRooted fat.toFatfs t) : s.cwd.head? = some slash := by
  have hlead := leading_rooted fat.toFatfs
  have hboth : s.Sound ∧ Places (fun p => p.head? = some slash) (fun _ => True) s := by
    refine h.invariant
      (I := fun s => s.Sound ∧ Places (fun p => p.head? = some slash) (fun _ => True) s)
      (C := EntersRooted fat.toFatfs) ⟨init_sound _ _, .init hlead _⟩ ?_ hc
    intro t ht hI hC
    exact ⟨step_sound ht hI.1, step_places hlead hI.1.inStep hI.2 ht hC⟩
  exact hboth.2.cwd

theorem run_in {wd : Bytes} (hm : m.workDir = wd)
    (h : Path (step fat view font) (init fat.toFatfs m) ts s)
    (hc : ∀ t ∈ ts, EntersIn fat.toFatfs wd t) : s.readIn = wd ∧ (s.cwd ≠ [] ∨ wd = [slash]) := by
  have hlead := leading_ne_nil fat.toFatfs wd
  have hall :
      s.Sound ∧ s.readIn = wd ∧ Places (fun p => p ≠ [] ∨ wd = [slash]) (fun _ => True) s := by
    refine h.invariant
      (I := fun s => s.Sound ∧ s.readIn = wd ∧
        Places (fun p => p ≠ [] ∨ wd = [slash]) (fun _ => True) s)
      (C := EntersIn fat.toFatfs wd) ⟨init_sound _ _, hm, .init hlead _⟩ ?_ hc
    intro t ht ⟨hsound, hread, hplaces⟩ hC
    refine ⟨step_sound ht hsound, ?_, step_places hlead hsound.inStep hplaces ht hC.2⟩
    rcases step_rereads ht hsound.inStep with ⟨hsame, -, -⟩ | ⟨m', -, hnow, -⟩
    · exact hsame.trans hread
    · exact hnow.trans hC.1
  exact ⟨hall.2.1, hall.2.2.cwd⟩

theorem sameFolder_of_rooted (m : Mount φ) (h : s.cwd.head? = some slash) : SameFolder m s := by
  refine ⟨resolve_absolute _ _ h, .inl ?_⟩
  intro hnil
  rw [hnil] at h
  cases h

/-- The highlight is always on a row, and the rows are those of the panel's path when they were
read. A deletion removes the file of that row or nothing, as long as the path still leads there: it
does if every path that is entered begins with a slash, or if the working directory stays and the
empty path is entered only while it means the root. -/
theorem selection_valid (spec : FatSpec fat)
    (h : Path (step fat view font) (init fat.toFatfs m) ts s) : s.SelValid ∧ s.Read fat.toFatfs ∧
    ∀ m', Canonical m'.workDir → (SameFolder m' s → DeletesRow spec font m' s) ∧
      ((∀ t ∈ ts, EntersRooted fat.toFatfs t) ∨
        m.workDir = m'.workDir ∧ (∀ t ∈ ts, EntersIn fat.toFatfs m'.workDir t) →
        SameFolder m' s) := by
  refine ⟨(run_sound h).rows.sel, run_read h, fun m' hwd => ⟨deletesRow spec hwd, ?_⟩⟩
  rintro (hrooted | ⟨hm, hin⟩)
  · exact sameFolder_of_rooted m' (run_rooted h hrooted)
  · obtain ⟨hread, hne⟩ := run_in hm h hin
    exact ⟨by rw [hread], hne⟩

end Run

def aName : Bytes := [0x61]
def docsName : Bytes := [0x64, 0x6F, 0x63, 0x73]
def docsA : Bytes := docsName ++ slash :: aName

def treeFat : FatIo (Bytes → Option Bytes) (Bytes × ℕ) :=
  { flatFat 0 with
    rootDir := fun fs => some ⟨docsName, false, true⟩ :: if (fs aName).isSome
      then [some ⟨aName, false, false⟩] else []
    openDir := fun fs rel =>
      if rel = docsName then .ok (if (fs docsA).isSome then [some ⟨aName, false, false⟩] else [])
      else (flatFat 0).openDir fs rel
    createFile := fun fs rel => if rel = docsName then (.error .invalidInput, fs)
      else (flatFat 0).createFile fs rel }

def treeSpec : FatSpec treeFat where
  ι := Bytes
  store := flatStore
  file := Prod.fst
  pos := Prod.snd
  Clean _ := True
  openDir_notFound := by
    intro fs rel h
    simp only [treeFat] at h
    split at h
    · cases h
    · exact (flatSpec 0).openDir_notFound h
  openFile_ok := (flatSpec 0).openFile_ok
  createFile_confined := by
    intro fs rel r fs' h
    simp only [treeFat] at h
    split at h
    · obtain ⟨-, rfl⟩ := Prod.mk.inj h
      exact .refl _ _
    · exact (flatSpec 0).createFile_confined h
  createFile_new := by
    intro fs rel r fs' q i h hq
    simp only [treeFat] at h ⊢
    split at h
    · obtain ⟨-, rfl⟩ := Prod.mk.inj h
      exact .inl (by rw [hq]; exact Option.some_ne_none i)
    · rename_i hrel
      by_cases hq' : q = docsName
      · left
        obtain ⟨-, -, ⟨-, rfl⟩ | ⟨-, rfl⟩⟩ := createFlat h
        · rw [hq]
          exact Option.some_ne_none i
        · obtain ⟨hs, rfl⟩ := flatStore_node.mp hq
          rw [Function.update_of_ne (fun h => hrel (h.symm.trans hq'))] at hs
          rw [flatStore_node.mpr ⟨hs, rfl⟩]
          exact Option.some_ne_none i
      · rw [if_neg hq']
        exact (flatSpec 0).createFile_new h hq
  createFile_ok := by
    intro fs rel h fs' hc
    simp only [treeFat] at hc
    split at hc
    · cases (Prod.mk.inj hc).1
    · exact (flatSpec 0).createFile_ok hc
  truncate_file := (flatSpec 0).truncate_file
  writeAll_file := (flatSpec 0).writeAll_file
  flush_file := (flatSpec 0).flush_file
  drop_file := (flatSpec 0).drop_file
  drop_clean := fun _ => rfl
  seek_file := (flatSpec 0).seek_file
  read_file := (flatSpec 0).read_file
  write_file := (flatSpec 0).write_file
  remove_confined := (flatSpec 0).remove_confined
  remove_new := (flatSpec 0).remove_new
  remove_ok := (flatSpec 0).remove_ok
  remount_some := (flatSpec 0).remount_some

def twoFiles : Bytes → Option Bytes :=
  fun rel => if rel = aName ∨ rel = docsA then some [0x78] else none

def noView {φ : Type} : Mount φ → Bytes → Opened := fun _ _ => .refused

def pathBar : FmEvent := .click 200 10 480 400 0

def enterPath (m : Mount φ) (text : Bytes) : List (Mount φ × FmEvent) :=
  (FmEvent.back :: text.map (FmEvent.push · 0) ++ [FmEvent.enter]).map fun e => (m, e)

theorem step_pathBar (fat : FatIo φ η) (view : Mount φ → Bytes → Opened) (m : Mount φ)
    (hcwd : s.cwd = [slash]) (hnav : s.nav = .list) :
    step fat view evenFont s (m, pathBar) = some (render evenFont 400 s.beginPathEdit) := by
  have hroot : chars [slash] = ['/'] := by
    rw [chars, show [slash] = Text.utf8 ['/'] by decide, Text.fromUtf8_utf8]
    rfl
  have hcrumb : crumbAt evenFont s 480 200 = none := by
    rw [crumbAt, hcwd]
    have hstart : crumbStart evenFont (pathSegments [slash]) (navLayout 480).2.1 = 0 := by decide
    have hfrom : crumbFrom evenFont 200 0 76 [([slash], [slash])] = none := by
      rw [crumbFrom, hroot]
      decide
    dsimp only
    rw [hstart, if_neg (by decide)]
    exact congrArg (Option.map _) hfrom
  have hhit : navHit evenFont s 200 480 = .path := by
    rw [navHit, hcrumb, hnav]
    decide
  rw [step, pathBar, act, if_pos (by decide), clickAt, if_pos (by decide), clickNavbar, hhit]
  rfl

theorem exists_run_of_pathBar (m : Mount (Bytes → Option Bytes)) (text : Bytes) (p : FmNav → Bool)
    (h : (replay (step treeFat noView evenFont)
      (render evenFont 400 (init treeFat.toFatfs m).beginPathEdit) (enterPath m text)).any (fun r =>
        p r.2) = true) : ∃ ts s, Path (step treeFat noView evenFont) (init treeFat.toFatfs m) ts s ∧
        p s = true := by
  obtain ⟨⟨ts, s⟩, hrun, hp⟩ := exists_path_of_replay _ _ (enterPath m text) (fun r => p r.2) h
  have hbar := step_pathBar treeFat noView m (s := init treeFat.toFatfs m) rfl rfl
  exact ⟨_, s, .append (.snoc _ .nil hbar) hrun, hp⟩

theorem docs_canonical : Canonical docsPath := ⟨[docsName], by
  intro c hc
  obtain rfl := List.mem_singleton.mp hc
  exact ⟨by decide, by decide, by decide, by decide⟩, by decide⟩

theorem selection_valid_docs : ∃ ts s,
    Path (step treeFat noView evenFont) (init treeFat.toFatfs ⟨some twoFiles, [slash]⟩) ts s ∧
    s.cwd = docsPath ∧ s.SelValid ∧ s.Read treeFat.toFatfs ∧ ∀ m, Canonical m.workDir →
    DeletesRow treeSpec evenFont m s := by
  obtain ⟨ts, s, h, hcwd⟩ := exists_run_of_pathBar ⟨some twoFiles, [slash]⟩ docsPath
    (fun s => decide (s.cwd = docsPath)) (by decide)
  have hcwd := of_decide_eq_true hcwd
  obtain ⟨hsel, hread, hdel⟩ := selection_valid treeSpec h
  refine ⟨ts, s, h, hcwd, hsel, hread, fun m hwd => (hdel m hwd).1 (sameFolder_of_rooted m ?_)⟩
  rw [hcwd]
  rfl

theorem not_deletesRow {wd : Bytes} (hrow : s.Highlights ⟨aName, false⟩)
    (hfile : rowFile ⟨some twoFiles, wd⟩ s ⟨aName, false⟩ = docsA)
    (hpath : (Mount.remove ⟨some twoFiles, wd⟩ treeFat (join s.cwd aName)).2 =
      ⟨some (Function.update twoFiles aName none), wd⟩) :
    ¬DeletesRow treeSpec evenFont ⟨some twoFiles, wd⟩ s := by
  intro hdel
  obtain ⟨hconf, -⟩ := hdel.row ⟨aName, false⟩ hrow rfl
  obtain ⟨hmount, -⟩ := deleteSel_row treeFat evenFont ⟨some twoFiles, wd⟩ hrow rfl
  rw [hfile, hmount, hpath] at hconf
  have hroot : (flatStore twoFiles).node docsA ≠ some aName := by decide
  have hother := hconf.other (q := aName) (j := aName) rfl hroot
  cases hother.1

/-- In `/docs` the empty path lists the folder, and the highlighted `a` removes `/a`. -/
theorem empty_path_deletes_other : ∃ ts s,
    Path (step treeFat noView evenFont) (init treeFat.toFatfs ⟨some twoFiles, docsPath⟩) ts s ∧
      ¬DeletesRow treeSpec evenFont ⟨some twoFiles, docsPath⟩ s := by
  obtain ⟨ts, s, h, hp⟩ := exists_run_of_pathBar ⟨some twoFiles, docsPath⟩ []
    (fun s => decide (s.mode = .list ∧ s.visible[s.sel]? = some ⟨aName, false⟩ ∧ s.cwd = [] ∧
      s.readIn = docsPath)) (by decide)
  obtain ⟨hmode, hrow, hcwd, hread⟩ := of_decide_eq_true hp
  refine ⟨ts, s, h, not_deletesRow ⟨hmode, hrow⟩ ?_ ?_⟩
  · rw [rowFile, hcwd, hread]
    decide
  · rw [hcwd]
    rfl

theorem cd_deletes_other : ∃ ts s,
    Path (step treeFat noView evenFont) (init treeFat.toFatfs ⟨some twoFiles, docsPath⟩) ts s ∧
      ¬DeletesRow treeSpec evenFont ⟨some twoFiles, [slash]⟩ s := by
  obtain ⟨ts, s, h, hp⟩ := exists_run_of_pathBar ⟨some twoFiles, docsPath⟩ [dot]
    (fun s => decide (s.mode = .list ∧ s.visible[s.sel]? = some ⟨aName, false⟩ ∧ s.cwd = [dot] ∧
      s.readIn = docsPath)) (by decide)
  obtain ⟨hmode, hrow, hcwd, hread⟩ := of_decide_eq_true hp
  refine ⟨ts, s, h, not_deletesRow ⟨hmode, hrow⟩ ?_ ?_⟩
  · rw [rowFile, hcwd, hread]
    decide
  · rw [hcwd]
    rfl

end Delete

end CoeleoOs.Ui.FmNav
