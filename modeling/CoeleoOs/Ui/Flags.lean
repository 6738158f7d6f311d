import CoeleoOs.Ui.Ops

/-!
# Overlays and their flags

The launcher, the runner, the power dialog and the two menus each have a field in the
compositor and a flag that the interrupt of the keyboard reads. An event opens and closes them
by a few operations, which are read off the state before it.
-/

namespace CoeleoOs.Ui
open CoeleoOs.Lib CoeleoOs.Fs
open CoeleoOs.Task (Bytes)

/-- `LAUNCHER_OPEN`, `RUNNER_OPEN`, `POWER_OPEN`, `DESK_MENU_OPEN` and `FILES_MENU_OPEN`. -/
structure Flags where
  launcher : Bool
  runner : Bool
  power : Bool
  deskMenu : Bool
  filesMenu : Bool
  deriving DecidableEq

def Flags.init : Flags := ⟨false, false, false, false, false⟩

structure Overlay where
  menus : Menus
  flags : Flags

namespace Overlay

def closeLauncher (o : Overlay) : Overlay :=
  if o.menus.launcherOpen then ⟨o.menus.closeLauncher, { o.flags with launcher := false }⟩ else o

def closeRunner (o : Overlay) : Overlay :=
  if o.menus.runnerOpen then ⟨o.menus.closeRunner, { o.flags with runner := false }⟩ else o

def closeDeskMenu (o : Overlay) : Overlay :=
  if o.menus.deskMenuOpen then ⟨o.menus.closeDeskMenu, { o.flags with deskMenu := false }⟩ else o

def closeFilesMenu (o : Overlay) : Overlay :=
  if o.menus.filesMenuOpen then ⟨o.menus.closeFilesMenu, { o.flags with filesMenu := false }⟩ else o

def closePowerDlg (o : Overlay) : Overlay :=
  if o.menus.powerDlg.isNone then o else ⟨o.menus.closePowerDlg, { o.flags with power := false }⟩

def openLauncher (entries : List Bytes) (o : Overlay) : Overlay :=
  let o := o.closeRunner.closeDeskMenu
  ⟨{ o.menus with
      launchList := entries
      launchSel := 0
      launcherOpen := true }, { o.flags with launcher := true }⟩

def openRunner (entries : List Bytes) (o : Overlay) : Overlay :=
  let o := o.closeLauncher.closeDeskMenu
  ⟨{ o.menus with
      runnerQuery := []
      runnerList := krunnerFilter entries []
      runnerSel := 0
      runnerOpen := true }, { o.flags with runner := true }⟩

def openDeskMenu (o : Overlay) : Overlay :=
  let o := o.closeFilesMenu.closeLauncher.closeRunner
  ⟨{ o.menus with deskMenuOpen := true }, { o.flags with deskMenu := true }⟩

def openFilesMenu (o : Overlay) : Overlay :=
  let o := o.closeDeskMenu.closeLauncher.closeRunner
  ⟨{ o.menus with
      filesMenuSel := 0
      filesMenuOpen := true }, { o.flags with filesMenu := true }⟩

def openPowerDlg (kind : PowerKind) (o : Overlay) : Overlay :=
  let o := o.closeLauncher.closeRunner.closeDeskMenu
  ⟨{ o.menus with
      powerDlg := some kind
      powerOk := false }, { o.flags with power := true }⟩

end Overlay

inductive MenuOp
  | openLauncher (entries : List Bytes)
  | closeLauncher
  | openRunner (entries : List Bytes)
  | closeRunner
  | openDeskMenu
  | closeDeskMenu
  | openFilesMenu
  | closeFilesMenu
  | openPowerDlg (kind : PowerKind)
  | closePowerDlg
  | launchSel (i : ℕ)
  | runnerSel (i : ℕ)
  | filesMenuSel (i : ℕ)
  | query (q : Bytes) (entries : List Bytes)
  | powerOk (ok : Bool)

namespace MenuOp

def edit (s : Menus) : MenuOp → Menus
  | openLauncher entries => s.openLauncher entries
  | closeLauncher => s.closeLauncher
  | openRunner entries => s.openRunner entries
  | closeRunner => s.closeRunner
  | openDeskMenu => s.openDeskMenu
  | closeDeskMenu => s.closeDeskMenu
  | openFilesMenu => s.openFilesMenu
  | closeFilesMenu => s.closeFilesMenu
  | openPowerDlg kind => s.openPowerDlg kind
  | closePowerDlg => s.closePowerDlg
  | launchSel i => { s with launchSel := i }
  | runnerSel i => { s with runnerSel := i }
  | filesMenuSel i => { s with filesMenuSel := i }
  | query q entries => { s with runnerQuery := q }.runnerRefresh entries
  | powerOk ok => { s with powerOk := ok }

def apply (o : Overlay) : MenuOp → Overlay
  | openLauncher entries => o.openLauncher entries
  | closeLauncher => o.closeLauncher
  | openRunner entries => o.openRunner entries
  | closeRunner => o.closeRunner
  | openDeskMenu => o.openDeskMenu
  | closeDeskMenu => o.closeDeskMenu
  | openFilesMenu => o.openFilesMenu
  | closeFilesMenu => o.closeFilesMenu
  | openPowerDlg kind => o.openPowerDlg kind
  | closePowerDlg => o.closePowerDlg
  | op => { o with menus := op.edit o.menus }

def edits (ops : List MenuOp) (s : Menus) : Menus := ops.foldl edit s

def run (ops : List MenuOp) (o : Overlay) : Overlay := ops.foldl apply o

theorem edits_append (ops ops' : List MenuOp) (s : Menus) : edits (ops ++ ops') s =
    edits ops' (edits ops s) := List.foldl_append

end MenuOp

section Menus

namespace Overlay

variable (o : Overlay)

theorem closeLauncher_menus : o.closeLauncher.menus = o.menus.closeLauncher := by
  rw [closeLauncher]
  split
  · rfl
  · rename_i h
    rw [Menus.closeLauncher, if_neg h]

theorem closeRunner_menus : o.closeRunner.menus = o.menus.closeRunner := by
  rw [closeRunner]
  split
  · rfl
  · rename_i h
    rw [Menus.closeRunner, if_neg h]

theorem closeDeskMenu_menus : o.closeDeskMenu.menus = o.menus.closeDeskMenu := by
  rw [closeDeskMenu]
  split
  · rfl
  · rename_i h
    rw [Bool.not_eq_true] at h
    rw [Menus.closeDeskMenu, ← h]

theorem closeFilesMenu_menus : o.closeFilesMenu.menus = o.menus.closeFilesMenu := by
  rw [closeFilesMenu]
  split
  · rfl
  · rename_i h
    rw [Bool.not_eq_true] at h
    rw [Menus.closeFilesMenu, ← h]

theorem closePowerDlg_menus : o.closePowerDlg.menus = o.menus.closePowerDlg := by
  rw [closePowerDlg]
  split
  · rename_i h
    have hnone : o.menus.powerDlg = none := Option.isNone_iff_eq_none.mp h
    have hok : (if o.menus.powerDlg.isSome then false else o.menus.powerOk) = o.menus.powerOk := by
      rw [hnone]
      rfl
    rw [Menus.closePowerDlg, hok, ← hnone]
  · rfl

end Overlay

theorem MenuOp.apply_menus (op : MenuOp) (o : Overlay) : (op.apply o).menus = op.edit o.menus := by
  cases op with
  | openLauncher entries =>
    simp only [apply, edit, Overlay.openLauncher, Menus.openLauncher, Overlay.closeDeskMenu_menus,
      Overlay.closeRunner_menus]
  | closeLauncher => exact o.closeLauncher_menus
  | openRunner entries =>
    simp only [apply, edit, Overlay.openRunner, Menus.openRunner, Overlay.closeDeskMenu_menus,
      Overlay.closeLauncher_menus]
  | closeRunner => exact o.closeRunner_menus
  | openDeskMenu =>
    simp only [apply, edit, Overlay.openDeskMenu, Menus.openDeskMenu, Overlay.closeRunner_menus,
      Overlay.closeLauncher_menus, Overlay.closeFilesMenu_menus]
  | closeDeskMenu => exact o.closeDeskMenu_menus
  | openFilesMenu =>
    simp only [apply, edit, Overlay.openFilesMenu, Menus.openFilesMenu, Overlay.closeRunner_menus,
      Overlay.closeLauncher_menus, Overlay.closeDeskMenu_menus]
  | closeFilesMenu => exact o.closeFilesMenu_menus
  | openPowerDlg kind =>
    simp only [apply, edit, Overlay.openPowerDlg, Menus.openPowerDlg, Overlay.closeRunner_menus,
      Overlay.closeLauncher_menus, Overlay.closeDeskMenu_menus]
  | closePowerDlg => exact o.closePowerDlg_menus
  | launchSel i => rfl
  | runnerSel i => rfl
  | filesMenuSel i => rfl
  | query q entries => rfl
  | powerOk ok => rfl

theorem MenuOp.run_menus (ops : List MenuOp) (o : Overlay) :
    (run ops o).menus = edits ops o.menus := by
  induction ops generalizing o with
  | nil => rfl
  | cons op ops ih => exact (ih (op.apply o)).trans (congrArg (edits ops) (apply_menus op o))

end Menus

def Menus.flags (s : Menus) : Flags :=
  ⟨s.launcherOpen, s.runnerOpen, s.powerDlg.isSome, s.deskMenuOpen, s.filesMenuOpen⟩

def Overlay.Matches (o : Overlay) : Prop := o.flags = o.menus.flags

section Matches

namespace Overlay

variable {o : Overlay}

theorem closeLauncher_matches (h : o.Matches) : o.closeLauncher.Matches := by
  obtain ⟨menus, flags⟩ := o
  obtain rfl : flags = menus.flags := h
  rw [closeLauncher]
  split
  · rename_i hopen
    simp only [Matches, Menus.closeLauncher]
    rw [if_pos hopen]
    rfl
  · rfl

theorem closeRunner_matches (h : o.Matches) : o.closeRunner.Matches := by
  obtain ⟨menus, flags⟩ := o
  obtain rfl : flags = menus.flags := h
  rw [closeRunner]
  split
  · rename_i hopen
    simp only [Matches, Menus.closeRunner]
    rw [if_pos hopen]
    rfl
  · rfl

theorem closeDeskMenu_matches (h : o.Matches) : o.closeDeskMenu.Matches := by
  obtain ⟨menus, flags⟩ := o
  obtain rfl : flags = menus.flags := h
  rw [closeDeskMenu]
  split <;> rfl

theorem closeFilesMenu_matches (h : o.Matches) : o.closeFilesMenu.Matches := by
  obtain ⟨menus, flags⟩ := o
  obtain rfl : flags = menus.flags := h
  rw [closeFilesMenu]
  split <;> rfl

theorem closePowerDlg_matches (h : o.Matches) : o.closePowerDlg.Matches := by
  obtain ⟨menus, flags⟩ := o
  obtain rfl : flags = menus.flags := h
  rw [closePowerDlg]
  split <;> rfl

end Overlay

theorem MenuOp.apply_matches (op : MenuOp) {o : Overlay} (h : o.Matches) :
    (op.apply o).Matches := by
  have hset : ∀ {o : Overlay} {s : Menus} {f : Flags}, o.Matches →
      (o.flags = o.menus.flags → f = s.flags) → Overlay.Matches ⟨s, f⟩ :=
    fun ho hf => hf ho
  cases op with
  | openLauncher entries =>
    have ho := Overlay.closeDeskMenu_matches (Overlay.closeRunner_matches h)
    exact hset ho fun he => by rw [he]; rfl
  | closeLauncher => exact Overlay.closeLauncher_matches h
  | openRunner entries =>
    have ho := Overlay.closeDeskMenu_matches (Overlay.closeLauncher_matches h)
    exact hset ho fun he => by rw [he]; rfl
  | closeRunner => exact Overlay.closeRunner_matches h
  | openDeskMenu =>
    have ho :=
      Overlay.closeRunner_matches (Overlay.closeLauncher_matches (Overlay.closeFilesMenu_matches h))
    exact hset ho fun he => by rw [he]; rfl
  | closeDeskMenu => exact Overlay.closeDeskMenu_matches h
  | openFilesMenu =>
    have ho :=
      Overlay.closeRunner_matches (Overlay.closeLauncher_matches (Overlay.closeDeskMenu_matches h))
    exact hset ho fun he => by rw [he]; rfl
  | closeFilesMenu => exact Overlay.closeFilesMenu_matches h
  | openPowerDlg kind =>
    have ho :=
      Overlay.closeDeskMenu_matches (Overlay.closeRunner_matches (Overlay.closeLauncher_matches h))
    exact hset ho fun he => by rw [he]; rfl
  | closePowerDlg => exact Overlay.closePowerDlg_matches h
  | launchSel i => exact h
  | runnerSel i => exact h
  | filesMenuSel i => exact h
  | query q entries => exact h
  | powerOk ok => exact h

theorem MenuOp.run_matches (ops : List MenuOp) {o : Overlay} (h : o.Matches) :
    (run ops o).Matches := by
  induction ops generalizing o with
  | nil => exact h
  | cons op ops ih => exact ih (apply_matches op h)

end Matches

section Marks

namespace Flags

def count (f : Flags) : ℕ :=
  f.launcher.toNat + f.runner.toNat + f.power.toNat + f.deskMenu.toNat + f.filesMenu.toNat

def clear (f : Flags) : Bool := !f.power && !f.filesMenu

end Flags

namespace MenuOp

def opens : MenuOp → Bool
  | openLauncher _ | openRunner _ | openDeskMenu | openFilesMenu | openPowerDlg _ => true
  | _ => false

def mark (f : Flags) : MenuOp → Flags
  | openLauncher _ => { f with runner := false, deskMenu := false, launcher := true }
  | closeLauncher => { f with launcher := false }
  | openRunner _ => { f with launcher := false, deskMenu := false, runner := true }
  | closeRunner => { f with runner := false }
  | openDeskMenu =>
    { f with filesMenu := false, launcher := false, runner := false, deskMenu := true }
  | closeDeskMenu => { f with deskMenu := false }
  | openFilesMenu =>
    { f with deskMenu := false, launcher := false, runner := false, filesMenu := true }
  | closeFilesMenu => { f with filesMenu := false }
  | openPowerDlg _ =>
    { f with launcher := false, runner := false, deskMenu := false, power := true }
  | closePowerDlg => { f with power := false }
  | launchSel _ | runnerSel _ | filesMenuSel _ | query _ _ | powerOk _ => f

theorem closeLauncher_flags (s : Menus) :
    s.closeLauncher.flags = { s.flags with launcher := false } := by
  rw [Menus.closeLauncher]
  split
  · rfl
  · rename_i h
    simp [Menus.flags, h]

theorem closeRunner_flags (s : Menus) : s.closeRunner.flags = { s.flags with runner := false } := by
  rw [Menus.closeRunner]
  split
  · rfl
  · rename_i h
    simp [Menus.flags, h]

theorem edit_flags (op : MenuOp) (s : Menus) : (op.edit s).flags = op.mark s.flags := by
  have hboth :
      s.closeLauncher.closeRunner.flags = { s.flags with launcher := false, runner := false } := by
    rw [closeRunner_flags, closeLauncher_flags]
  cases op with
  | openLauncher entries =>
    have h := closeRunner_flags s
    simp only [Menus.flags, Flags.mk.injEq] at h
    simp [edit, mark, Menus.openLauncher, Menus.flags, Menus.closeDeskMenu, h]
  | closeLauncher => exact closeLauncher_flags s
  | openRunner entries =>
    have h := closeLauncher_flags s
    simp only [Menus.flags, Flags.mk.injEq] at h
    simp [edit, mark, Menus.openRunner, Menus.flags, Menus.closeDeskMenu, h]
  | closeRunner => exact closeRunner_flags s
  | openDeskMenu =>
    have h := closeRunner_flags s.closeFilesMenu.closeLauncher
    rw [closeLauncher_flags] at h
    simp only [Menus.flags, Flags.mk.injEq, Menus.closeFilesMenu] at h
    simp [edit, mark, Menus.openDeskMenu, Menus.flags, Menus.closeFilesMenu, h]
  | closeDeskMenu => rfl
  | openFilesMenu =>
    have h := closeRunner_flags s.closeDeskMenu.closeLauncher
    rw [closeLauncher_flags] at h
    simp only [Menus.flags, Flags.mk.injEq, Menus.closeDeskMenu] at h
    simp [edit, mark, Menus.openFilesMenu, Menus.flags, Menus.closeDeskMenu, h]
  | closeFilesMenu => rfl
  | openPowerDlg kind =>
    simp only [Menus.flags, Flags.mk.injEq] at hboth
    simp [edit, mark, Menus.openPowerDlg, Menus.flags, Menus.closeDeskMenu, hboth]
  | closePowerDlg => rfl
  | launchSel i => rfl
  | runnerSel i => rfl
  | filesMenuSel i => rfl
  | query q entries => rfl
  | powerOk ok => rfl

variable {op : MenuOp} {f : Flags}

theorem mark_closes (h : op.opens = false) :
    (op.mark f).count ≤ f.count ∧ (f.clear = true → (op.mark f).clear = true) := by
  obtain ⟨launcher, runner, power, deskMenu, filesMenu⟩ := f
  cases op
  case closeLauncher | closeRunner | closeDeskMenu | closeFilesMenu | closePowerDlg =>
    revert launcher runner power deskMenu filesMenu
    simp only [mark]
    decide
  case launchSel | runnerSel | filesMenuSel | query | powerOk => exact ⟨le_rfl, id⟩
  all_goals cases h

theorem mark_opens (h : f.clear = true) (hone : f.count ≤ 1) : (op.mark f).count ≤ 1 := by
  obtain ⟨launcher, runner, power, deskMenu, filesMenu⟩ := f
  cases op
  case launchSel | runnerSel | filesMenuSel | query | powerOk => exact hone
  all_goals
    revert launcher runner power deskMenu filesMenu
    simp only [mark]
    decide

end MenuOp

def Orderly (ops : List MenuOp) (f : Flags) : Prop :=
  (∀ op ∈ ops, op.opens = false) ∨ (f.clear = true ∧ ∀ op ∈ ops.dropLast, op.opens = false)

namespace MenuOp

variable {ops : List MenuOp} {s : Menus}

theorem edits_closes (h : ∀ op ∈ ops, op.opens = false) (s : Menus) :
    (edits ops s).flags.count ≤ s.flags.count ∧
    (s.flags.clear = true → (edits ops s).flags.clear = true) := by
  induction ops generalizing s with
  | nil => exact ⟨le_rfl, id⟩
  | cons op ops ih =>
    have hop := mark_closes (f := s.flags) (h op List.mem_cons_self)
    rw [← edit_flags] at hop
    obtain ⟨hcount, hclear⟩ := ih (fun o ho => h o (List.mem_cons_of_mem _ ho)) (op.edit s)
    exact ⟨hcount.trans hop.1, fun hs => hclear (hop.2 hs)⟩

theorem edits_orderly (h : Orderly ops s.flags) (hone : s.flags.count ≤ 1) :
    (edits ops s).flags.count ≤ 1 := by
  rcases h with h | ⟨hclear, h⟩
  · exact (edits_closes h s).1.trans hone
  · rcases List.eq_nil_or_concat ops with rfl | ⟨pre, op, rfl⟩
    · exact hone
    · rw [List.concat_eq_append] at h ⊢
      rw [List.dropLast_concat] at h
      obtain ⟨hcount, hkept⟩ := edits_closes h s
      rw [edits_append]
      change (op.edit (edits pre s)).flags.count ≤ 1
      rw [edit_flags]
      exact mark_opens (hkept hclear) (hcount.trans hone)

end MenuOp

end Marks

end CoeleoOs.Ui
