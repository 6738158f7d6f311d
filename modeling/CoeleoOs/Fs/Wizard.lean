import CoeleoOs.Fs.Install
import CoeleoOs.Ui.Widgets

/-!
# The install wizard

The pages of the graphical installer over the kernel's two calls. A confirmation asks the kernel
once on the page that warns and once more on the next frame; the kernel counts the calls of all
programs together, so a disk that another program armed is installed by the first of the two.
-/

namespace CoeleoOs.Fs
open CoeleoOs.Lib Machine
open CoeleoOs.Ui (Widgets InputEv keyUp keyDown keyEnter keyEsc keyLeft keyRight)

namespace Wizard

inductive Page
  | welcome | disks | erase | progress | done | failed
  deriving DecidableEq

/-- A row of the table that the kernel gives. -/
structure Row where
  index : UInt32
  kind : UInt32
  flags : UInt32
  sectors : UInt64
  deriving DecidableEq

def maxDisks : ℕ := 8

def flagLive : UInt32 := 1

def flagSmall : UInt32 := 2

def kindCode : DiskKind → UInt32
  | .virtio => 0
  | .ahci => 1
  | .usb => 2

def sysDisks (k : Kernel) : List Row :=
  (k.disks.take maxDisks).mapIdx fun i d =>
    ⟨UInt32.ofNat i, kindCode d.kind,
      (if k.liveRoot = some i then flagLive else 0) ||| (if d.media.capacity < Install.minSectors
        then flagSmall else 0), d.media.capacity⟩

structure State where
  page : Page
  rows : List Row
  n : ℕ
  sel : ℕ
  eraseOk : Bool
  apply : Bool

def noRow : Row := ⟨0, 0, 0, 0⟩

def State.init : State := ⟨.welcome, List.replicate maxDisks noRow, 0, 0, false, false⟩

def State.row (s : State) : Row := s.rows.getD s.sel noRow

def State.index (s : State) : UInt64 := s.row.index.toUInt64

def Row.free (r : Row) : Bool := r.flags &&& (flagLive ||| flagSmall) = 0

def State.usable (s : State) : Bool := 0 < s.n && s.row.free

def loadDisks (k : Kernel) (s : State) : State :=
  let rows := (sysDisks k).take maxDisks
  { s with
    rows := rows ++ s.rows.drop rows.length
    n := rows.length
    sel := (rows.findIdx? Row.free).getD 0 }

/-- A call that the wizard made, and what the kernel did. -/
structure Call where
  index : UInt64
  out : Install.Step
  deriving DecidableEq

structure Sys where
  ui : Widgets
  wz : State
  kernel : Kernel
  calls : List Call
  exited : Bool

def start (k : Kernel) : Sys := ⟨Widgets.new, State.init, k, [], false⟩

section Frames

variable (rowH : ℕ) (w : World)

def install (idx : UInt64) (s : Sys) : UInt64 × Sys :=
  let r := Install.sysInstall w idx s.kernel
  (r.1.value, { s with
    kernel := r.2
    calls := s.calls ++ [⟨idx, (Install.step w idx.toNat s.kernel).1⟩] })

def Sys.setPage (s : Sys) (p : Page) : Sys := { s with wz := { s.wz with page := p } }

def commit (s : Sys) : Sys :=
  let r := install w s.wz.index s
  if r.1 ≠ 1 then r.2.setPage .failed
  else { r.2 with wz := { r.2.wz with apply := false, page := .progress } }

def pageWelcome (s : Sys) : Sys :=
  let r := s.ui.button 132 204 116 24
  let s := { s with ui := r.2 }
  if r.1 || s.ui.key = some keyEnter
    then { s with wz := { loadDisks s.kernel s.wz with page := .disks } } else s

def listRows (s : Sys) : Sys :=
  (List.range s.wz.n).foldl (fun s i =>
    let r := s.ui.listRow 8 (90 + i * rowH) 240 rowH
    { s with
      ui := r.2
      wz := if r.1 then { s.wz with sel := i } else s.wz }) s

def moveSel (s : Sys) : Sys :=
  if s.ui.key = some keyUp ∧ 0 < s.wz.sel then { s with wz := { s.wz with sel := s.wz.sel - 1 } }
  else if s.ui.key = some keyDown ∧ s.wz.sel + 1 < s.wz.n
    then { s with wz := { s.wz with sel := s.wz.sel + 1 } }
  else s

def pageDisks (s : Sys) : Sys :=
  let s := moveSel (listRows rowH s)
  let back := s.ui.button 8 204 116 24
  let can := s.wz.usable
  let next := back.2.buttonEn 132 204 116 24 can
  let s := { s with ui := next.2 }
  if back.1 then s.setPage .welcome
  else if (next.1 || (s.ui.key = some keyEnter && can)) && can then
    { s with wz := { s.wz with eraseOk := false, page := .erase } }
  else s

def pageErase (s : Sys) : Sys :=
  if s.ui.key = some keyLeft ∨ s.ui.key = some keyRight then
    erasePointer { s with wz := { s.wz with eraseOk := !s.wz.eraseOk } }
  else if s.ui.key = some keyEsc then s.setPage .disks
  else if s.ui.key = some keyEnter then
    if s.wz.eraseOk then commit w s else s.setPage .disks
  else erasePointer s
where
  erasePointer (s : Sys) : Sys :=
    let cancel := s.ui.buttonFill 8 204 116 24
    let wipe := cancel.2.buttonDanger 132 204 116 24
    let onFooter := wipe.2.hovering 0 204 256 24
    let scrim := wipe.2.downOutside 12 48 232 148 && !onFooter
    let s := { s with ui := wipe.2 }
    if cancel.1 || scrim then s.setPage .disks
    else if wipe.1 && s.wz.eraseOk then commit w s
    else s

def pageDone (s : Sys) : Sys :=
  let close := s.ui.button 8 204 116 24
  if close.1 then { s with ui := close.2, exited := true }
  else
    let again := close.2.button 132 204 116 24
    let s := { s with ui := again.2 }
    if again.1 || s.ui.key = some keyEnter then { s with kernel := Install.act w s.kernel .sync }
      else s

def pageFailed (s : Sys) : Sys :=
  let close := s.ui.button 8 204 116 24
  { s with ui := close.2, exited := close.1 || s.ui.key = some keyEnter }

def secondCall (s : Sys) : Sys :=
  let s := { s with
    ui := s.ui.finish
    wz := { s.wz with apply := true } }
  let r := install w s.wz.index s
  r.2.setPage (if r.1 = 0 then .done else .failed)

def frame (evs : List InputEv) (s : Sys) : Sys :=
  let s := { s with ui := s.ui.feed evs }
  if s.wz.page = .progress ∧ s.wz.apply = false then secondCall w s
  else
    let s :=
      match s.wz.page with
      | .welcome => pageWelcome s
      | .disks => pageDisks rowH s
      | .erase => pageErase w s
      | .progress => s
      | .done => pageDone w s
      | .failed => pageFailed s
    { s with ui := s.ui.finish }

/-- The wizard takes a turn, or another program does something in the kernel. -/
inductive Event
  | frame (evs : List InputEv)
  | other (a : Install.Act)

def sysStep (s : Sys) : Event → Option Sys
  | .frame evs => if s.exited then none else some (frame rowH w evs s)
  | .other a => some { s with kernel := Install.act w s.kernel a }

end Frames

section Spec

variable (w : World)

def wipes (ui : Widgets) : Bool := Widgets.inRect ui.mouse 132 204 116 24

/-- The user confirms on the page that warns: with Enter, or with the button, when "Erase disk" is
the choice. -/
def Confirms (s : Sys) (evs : List InputEv) : Prop :=
  s.wz.page = .erase ∧
    (((s.ui.feed evs).key = some keyEnter ∧ s.wz.eraseOk = true) ∨
      (wipes (s.ui.feed evs) = true ∧ (s.ui.feed evs).key ≠ some keyEnter ∧ (s.ui.feed evs).key ≠
        some keyEsc ∧ s.wz.eraseOk ≠ decide ((s.ui.feed evs).key = some keyLeft ∨
          (s.ui.feed evs).key = some keyRight)))

instance (s : Sys) (evs : List InputEv) : Decidable (Confirms s evs) :=
  inferInstanceAs (Decidable (_ ∧ _))

def newCalls (t : Trans Sys Event) : List Call := t.post.calls.drop t.pre.calls.length

def IsConfirmation (t : Trans Sys Event) : Prop := ∃ evs, t.act = .frame evs ∧ Confirms t.pre evs

instance (t : Trans Sys Event) : Decidable (IsConfirmation t) :=
  match h : t.act with
  | .frame evs => decidable_of_iff (Confirms t.pre evs) (by simp [IsConfirmation, h])
  | .other _ => isFalse (by simp [IsConfirmation, h])

/-- From the confirmation to the end of the second call. -/
def Confirming (t : Trans Sys Event) : Prop := IsConfirmation t ∨ t.pre.wz.page = .progress

instance (t : Trans Sys Event) : Decidable (Confirming t) := inferInstanceAs (Decidable (_ ∨ _))

/-- The kernel installed to the selected disk, for the wizard or for another program. -/
def Installs (t : Trans Sys Event) : Prop :=
  match t.act with
  | .frame _ => ⟨t.pre.wz.index, .ok⟩ ∈ newCalls t
  | .other a =>
    a.target = some t.pre.wz.index.toNat ∧ (Install.step w t.pre.wz.index.toNat t.pre.kernel).1 =
      .ok

instance (t : Trans Sys Event) : Decidable (Installs w t) :=
  match h : t.act with
  | .frame _ => decidable_of_iff (⟨t.pre.wz.index, .ok⟩ ∈ newCalls t) (by rw [Installs, h])
  | .other a => decidable_of_iff (a.target = some t.pre.wz.index.toNat ∧
      (Install.step w t.pre.wz.index.toNat t.pre.kernel).1 = .ok) (by rw [Installs, h])

def Applied (ts : List (Trans Sys Event)) : Prop := ∃ t ∈ ts, Confirming t ∧ Installs w t

instance (ts : List (Trans Sys Event)) : Decidable (Applied w ts) :=
  inferInstanceAs (Decidable (∃ t ∈ ts, _))

/-- A confirmation finds the kernel not armed for the disk, and until the second call no other
program asks for it. -/
structure Undisturbed (t : Trans Sys Event) : Prop where
  notArmed : IsConfirmation t → t.pre.kernel.pending ≠ some t.pre.wz.index.toNat
  notAsked :
    t.pre.wz.page = .progress → ∀ a, t.act = .other a → a.target ≠ some t.pre.wz.index.toNat

instance (t : Trans Sys Event) : Decidable (Undisturbed t) :=
  match h : t.act with
  | .frame _ =>
    decidable_of_iff (IsConfirmation t → t.pre.kernel.pending ≠ some t.pre.wz.index.toNat)
      ⟨fun hp => ⟨hp, fun _ a ha => by cases h.symm.trans ha⟩, Undisturbed.notArmed⟩
  | .other a =>
    decidable_of_iff (t.pre.wz.page = .progress → a.target ≠ some t.pre.wz.index.toNat) (by
      refine ⟨fun hp => ⟨?_, ?_⟩, fun hu hpage => hu.notAsked hpage a h⟩
      · rintro ⟨evs, hevs, -⟩
        cases h.symm.trans hevs
      · intro hpage a' ha'
        cases h.symm.trans ha'
        exact hp hpage)

/-- A call is for the selected row, which can be used, and comes from a confirmation: in the same
turn, or in the next one when the first call has armed. -/
def Asked (us : List (Trans Sys Event)) (t : Trans Sys Event) : Prop :=
  ∀ c ∈ newCalls t, c.index = t.pre.wz.index ∧ t.pre.wz.usable = true ∧
    (IsConfirmation t ∨ ∃ us₁ t₀ us₂, us = us₁ ++ t₀ :: us₂ ∧ IsConfirmation t₀ ∧ t₀.pre.wz.row =
      t.pre.wz.row ∧ newCalls t₀ = [⟨t.pre.wz.index, .armed⟩] ∧ ∀ u ∈ us₂, ∃ a, u.act = .other a)

end Spec

section Calls

variable {w : World} {s : Sys}

theorem install_value (idx : UInt64) :
    ((install w idx s).1 = 1 ↔ (Install.step w idx.toNat s.kernel).1 = .armed) ∧
      ((install w idx s).1 = 0 ↔ (Install.step w idx.toNat s.kernel).1 = .ok) := by
  rw [install, Install.sysInstall]
  cases (Install.step w idx.toNat s.kernel).1 <;> simp [Install.sysErr]

theorem install_state (idx : UInt64) :
    (install w idx s).2 = { s with
      kernel := (Install.step w idx.toNat s.kernel).2
      calls := s.calls ++ [⟨idx, (Install.step w idx.toNat s.kernel).1⟩] } := by
  rw [install, Install.sysInstall]
  dsimp only
  split <;> rfl

theorem commit_eq (w : World) (s : Sys) :
    commit w s = { s with
      wz :=
        if (Install.step w s.wz.index.toNat s.kernel).1 = .armed
          then { s.wz with apply := false, page := .progress } else { s.wz with page := .failed }
      kernel := (Install.step w s.wz.index.toNat s.kernel).2
      calls := s.calls ++ [⟨s.wz.index, (Install.step w s.wz.index.toNat s.kernel).1⟩] } := by
  rw [commit]
  dsimp only
  rw [install_state]
  by_cases h : (Install.step w s.wz.index.toNat s.kernel).1 = .armed
  · rw [if_neg (not_not.mpr ((install_value _).1.mpr h)), if_pos h]
  · rw [if_pos (mt (install_value _).1.mp h), if_neg h]
    rfl

end Calls

section Pages

variable {rowH : ℕ} {w : World} {s s' : Sys} {evs : List InputEv}

/-- What a frame can be: nothing is asked, or it confirms, or it makes the second call. -/
inductive FrameCase (w : World) (s : Sys) (evs : List InputEv) (s' : Sys) : Prop
  | quiet (hconf : ¬ Confirms s evs) (hbefore : s.wz.page ≠ .progress)
    (hafter : s'.wz.page ≠ .progress) (hcalls : s'.calls = s.calls)
    (hdone : s'.wz.page = .done ↔ s.wz.page = .done)
    (huse : s'.wz.page = .erase → s'.wz.usable = true) : FrameCase w s evs s'
  | confirmed (hconf : Confirms s evs)
      (hcalls : s'.calls = s.calls ++ [⟨s.wz.index, (Install.step w s.wz.index.toNat s.kernel).1⟩])
      (hpage : s'.wz.page = if (Install.step w s.wz.index.toNat s.kernel).1 = .armed then .progress
        else .failed) (hrow : s'.wz.row = s.wz.row) (huse : s'.wz.usable = s.wz.usable)
      (happly : s'.wz.page = .progress → s'.wz.apply = false) : FrameCase w s evs s'
  | second (hbefore : s.wz.page = .progress)
      (hcalls : s'.calls = s.calls ++ [⟨s.wz.index, (Install.step w s.wz.index.toNat s.kernel).1⟩])
      (hpage : s'.wz.page = if (Install.step w s.wz.index.toNat s.kernel).1 = .ok then .done
        else .failed) : FrameCase w s evs s'

theorem secondCall_case (hp : s.wz.page = .progress) :
    FrameCase w s evs (secondCall w { s with ui := s.ui.feed evs }) := by
  refine .second hp ?_ ?_
  · rw [secondCall]
    dsimp only
    rw [install_state]
    rfl
  · rw [secondCall]
    dsimp only
    rw [Sys.setPage]
    exact if_congr (install_value _).2 rfl rfl

theorem listRows_spec (rowH : ℕ) (s : Sys) :
    (listRows rowH s).calls = s.calls ∧ (listRows rowH s).wz.page = s.wz.page := by
  rw [listRows]
  induction List.range s.wz.n using List.reverseRecOn with
  | nil => exact ⟨rfl, rfl⟩
  | append_singleton is i ih =>
    rw [List.foldl_concat]
    refine ⟨ih.1, ?_⟩
    dsimp only
    split
    · exact ih.2
    · exact ih.2

theorem moveSel_spec (s : Sys) : (moveSel s).calls = s.calls ∧ (moveSel s).wz.page = s.wz.page := by
  rw [moveSel]
  split
  · exact ⟨rfl, rfl⟩
  split
  · exact ⟨rfl, rfl⟩
  · exact ⟨rfl, rfl⟩

theorem pageDisks_spec (hp : s.wz.page = .disks) :
    (pageDisks rowH s).calls = s.calls ∧ ((pageDisks rowH s).wz.page = .welcome ∨
      (pageDisks rowH s).wz.page = .disks ∨ (pageDisks rowH s).wz.page = .erase ∧
      (pageDisks rowH s).wz.usable = true) := by
  have hcalls : (moveSel (listRows rowH s)).calls = s.calls :=
    (moveSel_spec _).1.trans (listRows_spec rowH s).1
  have hpage : (moveSel (listRows rowH s)).wz.page = .disks :=
    (moveSel_spec _).2.trans ((listRows_spec rowH s).2.trans hp)
  rw [pageDisks]
  dsimp only
  split
  · exact ⟨hcalls, .inl rfl⟩
  split
  · rename_i hcan
    exact ⟨hcalls, .inr (.inr ⟨rfl, (Bool.and_eq_true_iff.mp hcan).2⟩)⟩
  · exact ⟨hcalls, .inr (.inl hpage)⟩

theorem wipes_not_cancel {ui : Widgets} (h : wipes ui = true) :
    Widgets.inRect ui.mouse 8 204 116 24 = false := by
  rw [wipes] at h
  rcases hm : ui.mouse with _ | ⟨mx, my⟩
  · rfl
  · rw [hm] at h
    simp only [Widgets.inRect, Bool.and_eq_true, decide_eq_true_eq] at h
    have hright : ¬ mx < Ui.satAdd 8 116 :=
      Nat.not_lt.mpr ((by decide : Ui.satAdd 8 116 ≤ 132).trans h.1.1.1)
    simp [Widgets.inRect, hright]

def Turned (s s' : Sys) : Prop :=
  s'.calls = s.calls ∧ (s'.wz.page = .disks ∨ s'.wz.page = s.wz.page) ∧ s'.wz.usable = s.wz.usable

theorem erasePointer_cases (w : World) (s : Sys) :
    (wipes s.ui = true ∧ s.wz.eraseOk = true) ∧
    (∃ ui, pageErase.erasePointer w s = commit w { s with ui := ui }) ∨
      ¬ (wipes s.ui = true ∧ s.wz.eraseOk = true) ∧ Turned s (pageErase.erasePointer w s) := by
  rw [pageErase.erasePointer]
  by_cases hw : wipes s.ui = true
  · have hcancel : s.ui.buttonFill 8 204 116 24 = (false, s.ui) := by
      rw [Widgets.buttonFill, Widgets.pressed, wipes_not_cancel hw]
      rfl
    have hwipe : s.ui.buttonDanger 132 204 116 24 = (true, { s.ui with mouse := none }) := by
      rw [Widgets.buttonDanger, Widgets.pressed, ← wipes, hw]
      rfl
    rw [hcancel]
    dsimp only
    rw [hwipe]
    cases he : s.wz.eraseOk
    · refine .inr ⟨by simp, ?_⟩
      rw [if_neg (by simp [Widgets.downOutside]), if_neg (by simp)]
      exact ⟨rfl, .inr rfl, rfl⟩
    · exact .inl ⟨⟨hw, rfl⟩, _, by rw [if_neg (by simp [Widgets.downOutside]), if_pos (by simp)]⟩
  · refine .inr ⟨fun h => hw h.1, ?_⟩
    have hwipe : ((s.ui.buttonFill 8 204 116 24).2.buttonDanger 132 204 116 24).1 = false := by
      rw [Widgets.buttonFill, Widgets.pressed, Widgets.buttonDanger, Widgets.pressed]
      split
      · rfl
      · rw [← wipes, Bool.not_eq_true _ |>.mp hw]
        rfl
    dsimp only
    rw [hwipe]
    split
    · exact ⟨rfl, .inl rfl, rfl⟩
    · exact ⟨rfl, .inr rfl, rfl⟩

theorem Turned.case (h : Turned { s with ui := s.ui.feed evs } s') (hconf : ¬ Confirms s evs)
    (hp : s.wz.page = .erase) (huse : s.wz.usable = true) :
    FrameCase w s evs { s' with ui := s'.ui.finish } := by
  obtain ⟨hcalls, hpage, hsame⟩ := h
  have hpage : s'.wz.page = .disks ∨ s'.wz.page = .erase := hpage.imp id fun h => h.trans hp
  refine .quiet hconf (by rw [hp]; nofun) ?_ hcalls ?_ fun _ => hsame.trans huse
  · rcases hpage with h | h <;> simp [h]
  · rcases hpage with h | h <;> simp [h, hp]

theorem commit_case {s₁ : Sys} (hconf : Confirms s evs) (hcalls : s₁.calls = s.calls)
    (hk : s₁.kernel = s.kernel) (hrow : s₁.wz.row = s.wz.row) (huse : s₁.wz.usable = s.wz.usable) :
    FrameCase w s evs { commit w s₁ with ui := (commit w s₁).ui.finish } := by
  have hidx : s₁.wz.index = s.wz.index := congrArg (fun r : Row => r.index.toUInt64) hrow
  rw [commit_eq, hidx, hk, hcalls]
  refine .confirmed hconf rfl ?_ ?_ ?_ ?_
  · dsimp only
    split <;> rfl
  · dsimp only
    split <;> exact hrow
  · dsimp only
    split <;> exact huse
  · dsimp only
    split
    · exact fun _ => rfl
    · nofun

theorem pageErase_case (hp : s.wz.page = .erase) (huse : s.wz.usable = true) :
    FrameCase w s evs { pageErase w { s with ui := s.ui.feed evs } with
      ui := (pageErase w { s with ui := s.ui.feed evs }).ui.finish } := by
  rw [pageErase]
  dsimp only
  split
  · rename_i hkey
    have hdec : decide ((s.ui.feed evs).key = some keyLeft ∨ (s.ui.feed evs).key = some keyRight) =
        true := decide_eq_true hkey
    have hne : (s.ui.feed evs).key ≠ some keyEnter ∧ (s.ui.feed evs).key ≠ some keyEsc := by
      rcases hkey with h | h <;> rw [h] <;> decide
    have hiff : Confirms s evs ↔ wipes (s.ui.feed evs) = true ∧ (!s.wz.eraseOk) = true := by
      rw [Confirms, hdec]
      simp [hp, hne.1, hne.2]
    rcases erasePointer_cases w { s with ui := s.ui.feed evs, wz := { s.wz with
      eraseOk := !s.wz.eraseOk } } with
      ⟨hc, ui, hui⟩ | ⟨hc, ht⟩
    · rw [hui]
      exact commit_case (hiff.mpr hc) rfl rfl rfl rfl
    · exact Turned.case ⟨ht.1, ht.2.1, ht.2.2⟩ (mt hiff.mp hc) hp huse
  split
  · rename_i hkey
    refine Turned.case ⟨rfl, .inl rfl, rfl⟩ ?_ hp huse
    rintro ⟨-, ⟨h, -⟩ | ⟨-, -, h, -⟩⟩
    · exact absurd (hkey.symm.trans h) (by decide)
    · exact h hkey
  split
  · rename_i hkey
    split
    · rename_i hok
      exact commit_case ⟨hp, .inl ⟨hkey, hok⟩⟩ rfl rfl rfl rfl
    · rename_i hok
      refine Turned.case ⟨rfl, .inl rfl, rfl⟩ ?_ hp huse
      rintro ⟨-, ⟨-, h⟩ | ⟨-, h, -⟩⟩
      · exact hok h
      · exact h hkey
  · rename_i harrow hesc henter
    have hiff : Confirms s evs ↔ wipes (s.ui.feed evs) = true ∧ s.wz.eraseOk = true := by
      rw [Confirms, decide_eq_false harrow]
      simp [hp, henter, hesc]
    rcases erasePointer_cases w { s with ui := s.ui.feed evs } with ⟨hc, ui, hui⟩ | ⟨hc, ht⟩
    · rw [hui]
      exact commit_case (hiff.mpr hc) rfl rfl rfl rfl
    · exact Turned.case ht (mt hiff.mp hc) hp huse

/-- Who stands before the disk to be erased has chosen one that can be used. -/
structure Steady (s : Sys) : Prop where
  usable : s.wz.page = .erase ∨ s.wz.page = .progress → s.wz.usable = true
  waits : s.wz.page = .progress → s.wz.apply = false

theorem frame_case (hs : Steady s) : FrameCase w s evs (frame rowH w evs s) := by
  rw [frame]
  dsimp only
  by_cases hprog : s.wz.page = .progress
  · rw [if_pos ⟨hprog, hs.waits hprog⟩]
    exact secondCall_case hprog
  rw [if_neg (mt And.left hprog)]
  cases hp : s.wz.page with
  | erase => exact pageErase_case hp (hs.usable (.inl hp))
  | progress => exact absurd hp hprog
  | welcome =>
    have hquiet : (pageWelcome { s with ui := s.ui.feed evs }).calls = s.calls ∧
        ((pageWelcome { s with ui := s.ui.feed evs }).wz.page = .welcome ∨
          (pageWelcome { s with ui := s.ui.feed evs }).wz.page = .disks) := by
      rw [pageWelcome]
      dsimp only
      split
      · exact ⟨rfl, .inr rfl⟩
      · exact ⟨rfl, .inl hp⟩
    refine .quiet (by simp [Confirms, hp]) hprog ?_ hquiet.1 ?_ ?_ <;>
      rcases hquiet.2 with h | h <;> simp [h, hp]
  | disks =>
    have hquiet : (pageDisks rowH { s with ui := s.ui.feed evs }).calls = s.calls ∧
        ((pageDisks rowH { s with ui := s.ui.feed evs }).wz.page = .welcome ∨
          (pageDisks rowH { s with ui := s.ui.feed evs }).wz.page = .disks ∨
          (pageDisks rowH { s with ui := s.ui.feed evs }).wz.page = .erase ∧
            (pageDisks rowH { s with ui := s.ui.feed evs }).wz.usable = true) := pageDisks_spec hp
    refine .quiet (by simp [Confirms, hp]) hprog ?_ hquiet.1 ?_ ?_ <;>
      rcases hquiet.2 with h | h | h <;> simp [h, hp]
  | done =>
    have hquiet : (pageDone w { s with ui := s.ui.feed evs }).calls = s.calls ∧
        (pageDone w { s with ui := s.ui.feed evs }).wz = s.wz := by
      rw [pageDone]
      dsimp only
      split
      · exact ⟨rfl, rfl⟩
      split
      · exact ⟨rfl, rfl⟩
      · exact ⟨rfl, rfl⟩
    refine .quiet (by simp [Confirms, hp]) hprog ?_ hquiet.1 ?_ ?_ <;> simp [hquiet.2, hp]
  | failed => refine .quiet (by simp [Confirms, hp]) hprog ?_ rfl ?_ ?_ <;> simp [pageFailed, hp]

end Pages

section Runs

variable {rowH : ℕ} {w : World} {k : Kernel} {s s' : Sys} {ts : List (Trans Sys Event)}
    {t : Trans Sys Event}

theorem steady_frame {evs : List InputEv} (hs : Steady s) (h : FrameCase w s evs s') :
    Steady s' := by
  cases h with
  | quiet hconf hbefore hafter hcalls hdone huse =>
    exact ⟨fun h => h.elim huse fun h => absurd h hafter, fun h => absurd h hafter⟩
  | confirmed hconf hcalls hpage hrow huse happly =>
    exact ⟨fun _ => huse.trans (hs.usable (.inl hconf.1)), happly⟩
  | second hbefore hcalls hpage =>
    have hnot : s'.wz.page ≠ .erase ∧ s'.wz.page ≠ .progress := by
      rw [hpage]
      split
      · exact ⟨nofun, nofun⟩
      · exact ⟨nofun, nofun⟩
    exact ⟨fun h => (h.elim hnot.1 hnot.2).elim, fun h => (hnot.2 h).elim⟩

theorem sysStep_cases {e : Event} (hs : Steady s) (h : sysStep rowH w s e = some s') :
    (∃ evs, e = .frame evs ∧ FrameCase w s evs s') ∨
      ∃ a, e = .other a ∧ s' = { s with kernel := Install.act w s.kernel a } := by
  cases e with
  | frame evs =>
    rw [sysStep] at h
    split at h
    · cases h
    · obtain rfl := Option.some.inj h
      exact .inl ⟨evs, rfl, frame_case hs⟩
  | other a => exact .inr ⟨a, rfl, (Option.some.inj h).symm⟩

theorem run_steady (h : Path (sysStep rowH w) (start k) ts s) : Steady s := by
  refine Reachable.invariant ⟨?_, fun h => by cases h⟩ (fun s a s' hs hstep => ?_) ⟨ts, h⟩
  · rintro (h | h) <;> cases h
  · rcases sysStep_cases hs hstep with ⟨evs, rfl, hc⟩ | ⟨a, rfl, rfl⟩
    · exact steady_frame hs hc
    · exact ⟨hs.usable, hs.waits⟩

def Between (ts : List (Trans Sys Event)) (s : Sys) : Prop :=
  ∃ us₁ t₀ us₂, ts = us₁ ++ t₀ :: us₂ ∧ IsConfirmation t₀ ∧ t₀.pre.wz.row = s.wz.row ∧
    newCalls t₀ = [⟨s.wz.index, .armed⟩] ∧ ∀ u ∈ us₂, ∃ a, u.act = .other a

theorem newCalls_append {t : Trans Sys Event} {l : List Call}
    (h : t.post.calls = t.pre.calls ++ l) : newCalls t = l := by
  rw [newCalls, h, List.drop_left]

theorem newCalls_same {t : Trans Sys Event} (h : t.post.calls = t.pre.calls) : newCalls t = [] := by
  rw [newCalls, h, List.drop_length]

theorem index_of_row {s s' : State} (h : s.row = s'.row) : s.index = s'.index :=
  congrArg (fun r : Row => r.index.toUInt64) h

theorem run_between (h : Path (sysStep rowH w) (start k) ts s) (hp : s.wz.page = .progress) :
    Between ts s := by
  induction h with
  | nil => cases hp
  | @snoc ts s s' e hpath hstep ih =>
    rcases sysStep_cases (run_steady hpath) hstep with ⟨evs, rfl, hc⟩ | ⟨a, rfl, rfl⟩
    · cases hc with
      | quiet hconf hbefore hafter hcalls hdone huse => exact absurd hp hafter
      | confirmed hconf hcalls hpage hrow huse happly =>
        have harmed : (Install.step w s.wz.index.toNat s.kernel).1 = .armed := by
          by_contra hne
          rw [if_neg hne, hp] at hpage
          cases hpage
        refine ⟨ts, ⟨s, .frame evs, s'⟩, [], rfl, ⟨evs, rfl, hconf⟩, hrow.symm, ?_, by simp⟩
        rw [newCalls_append hcalls, harmed, index_of_row hrow]
      | second hbefore hcalls hpage =>
        rw [hp] at hpage
        split at hpage <;> cases hpage
    · obtain ⟨us₁, t₀, us₂, rfl, hconf, hrow, hcall, hothers⟩ := ih hp
      refine ⟨us₁, t₀, us₂ ++ [_], List.append_assoc us₁ (t₀ :: us₂) _, hconf, hrow, hcall, ?_⟩
      intro u hu
      rcases List.mem_append.mp hu with hu | hu
      · exact hothers u hu
      · obtain rfl := List.mem_singleton.mp hu
        exact ⟨a, rfl⟩

theorem run_asked (h : Path (sysStep rowH w) (start k) ts s) {us vs : List (Trans Sys Event)}
    (hts : ts = us ++ t :: vs) : Asked us t := by
  subst hts
  obtain ⟨hus, hstep⟩ := h.of_split
  have hsteady := run_steady hus
  intro c hc
  rcases sysStep_cases hsteady hstep with ⟨evs, hact, hframe⟩ | ⟨a, -, hpost⟩
  · cases hframe with
    | quiet hconf hbefore hafter hcalls hdone huse =>
      rw [newCalls_same hcalls] at hc
      cases hc
    | confirmed hconf hcalls hpage hrow huse happly =>
      rw [newCalls_append hcalls, List.mem_singleton] at hc
      exact ⟨hc ▸ rfl, hsteady.usable (.inl hconf.1), .inl ⟨evs, hact, hconf⟩⟩
    | second hbefore hcalls hpage =>
      rw [newCalls_append hcalls, List.mem_singleton] at hc
      exact ⟨hc ▸ rfl, hsteady.usable (.inr hbefore), .inr (run_between hus hbefore)⟩
  · rw [newCalls_same (by rw [hpost])] at hc
    cases hc

theorem step_ok_pending {n : ℕ} {k : Kernel} (h : (Install.step w n k).1 = .ok) :
    k.pending = some n := by
  have hcases := (Install.step_cases w n k).1
  rw [h] at hcases
  cases hcases with
  | refused hs => cases hs
  | applied hs hlive hbefore => exact hbefore

theorem applied_snoc : Applied w (ts ++ [t]) ↔ Applied w ts ∨ Confirming t ∧ Installs w t := by
  simp only [Applied, List.mem_append, List.mem_singleton, or_and_right, exists_or, exists_eq_left]

theorem run_told (h : Path (sysStep rowH w) (start k) ts s) (hc : ∀ t ∈ ts, Undisturbed t) :
    s.wz.page = .done ↔ Applied w ts := by
  induction h with
  | nil => simp [start, State.init, Applied]
  | @snoc ts s s' e hpath hstep ih =>
    have ih := ih fun t ht => hc t (List.mem_append_left _ ht)
    have hlast := hc _ (List.mem_append_right _ (List.mem_singleton_self _))
    rw [applied_snoc, ← ih]
    rcases sysStep_cases (run_steady hpath) hstep with ⟨evs, rfl, hframe⟩ | ⟨a, rfl, rfl⟩
    · cases hframe with
      | quiet hconf hbefore hafter hcalls hdone huse =>
        rw [hdone, or_iff_left]
        rintro ⟨⟨evs', hevs, hconf'⟩ | hprog, -⟩
        · cases hevs
          exact hconf hconf'
        · exact hbefore hprog
      | confirmed hconf hcalls hpage hrow huse happly =>
        have hnot : (Install.step w s.wz.index.toNat s.kernel).1 ≠ .ok := fun hok =>
          hlast.notArmed ⟨evs, rfl, hconf⟩ (step_ok_pending hok)
        have hpre : s.wz.page ≠ .done := by
          rw [hconf.1]
          nofun
        have hpost : s'.wz.page ≠ .done := by
          rw [hpage]
          split <;> nofun
        refine iff_of_false hpost (not_or.mpr ⟨hpre, ?_⟩)
        rintro ⟨-, hin⟩
        rw [Installs] at hin
        dsimp only at hin
        rw [newCalls_append hcalls, List.mem_singleton] at hin
        exact hnot (congrArg Call.out hin).symm
      | second hbefore hcalls hpage =>
        have hpre : s.wz.page ≠ .done := by
          rw [hbefore]
          nofun
        have hin : Installs w ⟨s, .frame evs, s'⟩ ↔
            (Install.step w s.wz.index.toNat s.kernel).1 = .ok := by
          rw [Installs]
          dsimp only
          rw [newCalls_append hcalls, List.mem_singleton, Call.mk.injEq]
          exact ⟨fun h => h.2.symm, fun h => ⟨rfl, h.symm⟩⟩
        rw [or_iff_right hpre, hin, and_iff_right (show Confirming _ from .inr hbefore), hpage]
        split
        · rename_i hok
          exact iff_of_true rfl hok
        · rename_i hok
          exact iff_of_false nofun hok
    · refine (or_iff_left ?_).symm
      rintro ⟨⟨evs, hevs, -⟩ | hprog, hin⟩
      · cases hevs
      · exact hlast.notAsked hprog a rfl hin.1

theorem armed_confirmation_fails (h : Path (sysStep rowH w) (start k) ts s)
    {us vs : List (Trans Sys Event)} (hts : ts = us ++ t :: vs) (hconf : IsConfirmation t)
    (hok : (Install.step w t.pre.wz.index.toNat t.pre.kernel).1 = .ok) :
    Installs w t ∧ t.post.wz.page = .failed := by
  subst hts
  obtain ⟨hus, hstep⟩ := h.of_split
  obtain ⟨evs, hact, hconf⟩ := hconf
  rcases sysStep_cases (run_steady hus) hstep with ⟨evs', hact', hframe⟩ | ⟨a, hact', -⟩
  · cases hact.symm.trans hact'
    cases hframe with
    | quiet hnot hbefore hafter hcalls hdone huse => exact absurd hconf hnot
    | confirmed _ hcalls hpage hrow huse happly =>
      rw [hok] at hpage
      refine ⟨?_, hpage⟩
      rw [Installs, hact]
      dsimp only
      rw [newCalls_append hcalls, hok]
      exact List.mem_singleton_self _
    | second hbefore hcalls hpage => cases hconf.1.symm.trans hbefore
  · cases hact.symm.trans hact'

/-- The wizard asks the kernel only for the row that is selected and can be used, and only from a
confirmation; where no other program armed the disk or asks for it between the two calls, the last
page tells whether the kernel installed. -/
theorem wizard_truthful (rowH : ℕ) (w : World) (k : Kernel) {ts : List (Trans Sys Event)} {s : Sys}
    (h : Path (sysStep rowH w) (start k) ts s) :
    (∀ us t vs, ts = us ++ t :: vs → Asked us t) ∧
    ((∀ t ∈ ts, Undisturbed t) → (s.wz.page = .done ↔ Applied w ts)) :=
  ⟨fun _ _ _ hts => run_asked h hts, run_told h⟩

def keyEv (k : UInt32) : InputEv := ⟨3, 0, 0, k⟩

def confirmKeys : List Event :=
  [.frame [keyEv 4], .frame [keyEv 4], .frame [keyEv 9], .frame [keyEv 4]]

def mounted : Kernel := Install.act Install.trial (Install.boot Install.trialDisks) .init

theorem wizard_installs :
    ∃ r : List (Trans Sys Event) × Sys, Path (sysStep 24 Install.trial) (start mounted) r.1 r.2 ∧
    r.2.wz.page = .done ∧ r.2.calls = [⟨1, .armed⟩, ⟨1, .ok⟩] ∧ (∀ us t vs, r.1 = us ++ t :: vs →
      Asked us t) ∧ Applied Install.trial r.1 := by
  obtain ⟨r, hpath, hrun⟩ :=
    exists_path_of_replay (sysStep 24 Install.trial) (start mounted) (confirmKeys ++ [.frame []])
    (fun r => r.2.wz.page = .done ∧ r.2.calls = [⟨1, .armed⟩, ⟨1, .ok⟩] ∧ ∀ t ∈ r.1, Undisturbed t)
    (by decide +kernel)
  obtain ⟨hpage, hcalls, hall⟩ := of_decide_eq_true hrun
  obtain ⟨hasked, htold⟩ := wizard_truthful 24 Install.trial mounted hpath
  exact ⟨r, hpath, hpage, hcalls, hasked, (htold hall).mp hpage⟩

/-- On a kernel that was armed for disk 1 from the shell, the wizard installs and says that it
failed. -/
theorem wizard_denies_install : ¬ ∀ (k : Kernel) (ts : List (Trans Sys Event)) (s : Sys),
    Path (sysStep 24 Install.trial) (start k) ts s → s.wz.page = .done ∨ s.wz.page = .failed →
      (s.wz.page = .done ↔ Applied Install.trial ts) := by
  obtain ⟨r, hpath, hrun⟩ := exists_path_of_replay (sysStep 24 Install.trial)
    (start (Install.act Install.trial mounted (.handleCmd ['1']))) confirmKeys
    (fun r => r.2.wz.page = .failed ∧ Applied Install.trial r.1) (by decide +kernel)
  obtain ⟨hpage, happ⟩ := of_decide_eq_true hrun
  intro h
  have hdone := (h _ r.1 r.2 hpath (.inr hpage)).mpr happ
  rw [hpage] at hdone
  cases hdone

end Runs

end Wizard

end CoeleoOs.Fs
